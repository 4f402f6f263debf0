import Scriptlet.Proofs.Arena.Threshold
import Scriptlet.Proofs.Eval.Course
import Scriptlet.Proofs.Eval.Recycling

/-!
# Frames and calls are balanced

Whichever way an evaluation ends, with a value, by leaving a function or with an error, the frames
that were opened on the way have been closed and the calls have been left.

* `Moment.Ready`: a moment starts in a valid arena and in an active environment.
* `Moment.Ready.starts`, `Moment.Ready.balanced`: what a start and a whole run keep.
* `Balanced`: **the same frames are active and the same calls open** before and after.
* `Moment.Settles`: without a function that is declared inside a frame, nothing is left behind.
* `frames_balanced`: all of this in every session.
-/

namespace Scriptlet

open Arena (globals)
open Relation (ReflTransGen)

/-! ## What evaluation keeps -/

/-- **Nothing is left open**: the active frames and the open calls are as before, and all other
frames that are live are captured. -/
structure Balanced (σ σ' : State) : Prop where
  active (s : Slot) : (σ'.arena.frame s).active = (σ.arena.frame s).active
  depth : σ'.depth = σ.depth
  captured {s : Slot} (live : (σ'.arena.frame s).live) (closed : ¬ (σ'.arena.frame s).active) :
    (σ'.arena.frame s).captured

theorem World.Valid.paired {σ : State} {held : List Value} (h : (σ.world held).Valid) :
    Paired id held σ σ := ⟨h, .refl _, rfl⟩

section Agree

variable {α : Type} [Carries α] {φ : Slot → Slot} {held : List Value} {σ σ' : State}
  {o o' : Outcome α}

theorem Agree.of_done {a : α} (h : Agree φ held σ o o') (ho : o = .done a σ') :
    (σ'.world (Carries.values a ++ held)).Valid ∧
      ∀ s, (σ'.arena.frame s).active = (σ.arena.frame s).active := by
  subst ho
  cases h with
  | done ψ keeps paired _ => exact ⟨paired.valid, keeps.active⟩

theorem Agree.of_state? (h : Agree φ held σ o o') (ho : o.state? = some σ') :
    (σ'.world held).Valid ∧ ∀ s, (σ'.arena.frame s).active = (σ.arena.frame s).active := by
  cases h with
  | done ψ keeps paired _ =>
    cases ho
    exact ⟨paired.letGo.valid, keeps.active⟩
  | failed ψ keeps paired =>
    cases ho
    exact ⟨paired.valid, keeps.active⟩
  | outOfFuel => cases ho

end Agree

/-- The values held by the surroundings. -/
def Task.held : Task → List Value
  | .evaluate _ held _ | .evaluateAll _ held _ | .call held _ _ _ | .execute _ held _
  | .executeAll _ held _ | .iterate _ held _ _ _ _ _ => held

/-- A computation can go on in an environment. -/
structure State.Stands (σ : State) (env : Slot) (held : List Value) : Prop where
  valid : (σ.world held).Valid
  active : (σ.arena.frame env).active

/-- **A moment can start.** -/
def Moment.Ready : Moment → Prop
  | ⟨_, .evaluate env held _, σ⟩ | ⟨_, .evaluateAll env held _, σ⟩ | ⟨_, .execute env held _, σ⟩
  | ⟨_, .executeAll env held _, σ⟩ | ⟨_, .iterate env held _ _ _ _ _, σ⟩ => σ.Stands env held
  | ⟨_, .call held _ callee args, σ⟩ => (σ.world held).Valid ∧ callee ∈ held ∧ args ⊆ held

namespace State.Stands

variable {clock : Nat → Number} {n : Nat} {env : Slot} {held : List Value} {σ σ' : State}

theorem evaluate {e : Expr} {v : Value} (h : σ.Stands env held)
    (hrun : evaluate (.recycling clock) n env held e σ = .done v σ') :
    σ'.Stands env (v :: held) := by
  have hagree := (simulated clock n).evaluate h.valid.paired h.active rfl [] e
  obtain ⟨hvalid, hactive⟩ := hagree.of_done hrun
  exact ⟨hvalid, by rw [hactive]; exact h.active⟩

theorem evaluateAll {es : List Expr} {vs : List Value} (h : σ.Stands env held)
    (hrun : evaluateAll (.recycling clock) n env held es σ = .done vs σ') :
    σ'.Stands env (vs ++ held) := by
  have hagree := (simulated clock n).evaluateAll h.valid.paired h.active rfl [] es
  obtain ⟨hvalid, hactive⟩ := hagree.of_done hrun
  exact ⟨hvalid, by rw [hactive]; exact h.active⟩

theorem execute {s : Stmt} (h : σ.Stands env held)
    (hrun : execute (.recycling clock) n env held s σ = .done .next σ') :
    σ'.Stands env held := by
  have hagree := (simulated clock n).execute h.valid.paired h.active rfl [] s
  obtain ⟨hvalid, hactive⟩ := hagree.of_done hrun
  exact ⟨hvalid, by rw [hactive]; exact h.active⟩

theorem drop {held' : List Value} (h : σ.Stands env held) (hsub : held' ⊆ held) :
    σ.Stands env held' := ⟨h.valid.drop hsub, h.active⟩

theorem opens (h : σ.Stands env held) : (σ.world held).Opens env := .inl h.active

end State.Stands

theorem World.Valid.stands_push {σ σ₁ : State} {env s : Slot} {held : List Value}
    {clock : Nat → Number} (h : (σ.world held).Valid) (henv : (σ.world held).Opens env)
    (hopened : σ.push (.recycling clock) env held = (s, σ₁)) : σ₁.Stands s held := by
  cases hopened
  exact ⟨h.push henv, (h.closes_push henv).1⟩

theorem World.Valid.frame_opened {σ σ₁ : State} {env s : Slot} {held : List Value}
    {clock : Nat → Number} (h : (σ.world held).Valid)
    (hopened : σ.push (.recycling clock) env held = (s, σ₁)) :
    σ₁.arena.frame s = Arena.fresh env ∧
      (∀ t, t ≠ s → σ₁.arena.frame t = (σ.arena.makeRoom held).frame t) ∧
      ¬ ((σ.arena.makeRoom held).frame s).live := by
  have hroom := h.makeRoom.toShaped
  cases hopened
  exact ⟨hroom.frame_place_self _, fun t ht => hroom.frame_place_of_ne _ ht,
    hroom.not_live_place _⟩

namespace Moment

variable {clock : Nat → Number} {m m' : Moment} {σ' : State}

theorem Ready.valid (h : m.Ready) : (m.state.world m.task.held).Valid := by
  obtain ⟨n, task, σ⟩ := m
  cases task with
  | call => exact h.1
  | _ => exact State.Stands.valid h

/-- **What a ready moment starts is ready.** -/
theorem Ready.starts (h : m.Ready) (hstarts : m.Starts (.recycling clock) m') : m'.Ready := by
  cases hstarts with
  | part hpart =>
    cases hpart with
    | first _ | head => exact h
    | right ended | undecided ended _ | arguments ended | tail ended =>
      exact State.Stands.evaluate h ended
    | assigned ended => exact (State.Stands.evaluate h ended).drop (List.subset_cons_self _ _)
  | @call n env held line callee arguments f args σ σ₁ σ₂ ended ended' =>
    have hargs := (State.Stands.evaluate h ended).evaluateAll ended'
    have hsub : f :: args ++ held ⊆ args ++ f :: held := by
      intro v hv
      simp only [List.cons_append, List.mem_cons, List.mem_append] at hv ⊢
      tauto
    refine ⟨hargs.valid.drop hsub, List.mem_cons_self, ?_⟩
    exact List.Subset.trans (List.subset_append_left _ _) (List.subset_cons_self _ _)
  | @body n held line args s σ σ₁ σ₂ f enters opened bound =>
    obtain ⟨hvalid, hcallee, hargs⟩ := h
    have hopens : (σ.world held).Opens f.env :=
      .inr ⟨f, hcallee, hvalid.tracked (.inl hcallee), rfl⟩
    have hpushed := hvalid.stands_push hopens opened
    obtain ⟨hvalid', hactive⟩ :=
      (hpushed.valid.paired.bindAll hpushed.active f.params hargs).of_done bound
    have hstands : σ₂.Stands s held := ⟨hvalid', by rw [hactive]; exact hpushed.active⟩
    exact ⟨hstands.valid, hstands.active⟩
  | first _ | head => exact h
  | block opened => exact h.valid.stands_push h.opens opened
  | yes ended _ | branch ended | loop ended _ | range ended =>
    exact (State.Stands.evaluate h ended).drop (List.subset_cons_self _ _)
  | again ended _ ended' =>
    exact ((State.Stands.evaluate h ended).drop (List.subset_cons_self _ _)).execute ended'
  | tail ended => exact State.Stands.execute h ended
  | @turn n env held line name body i stop x s σ σ₁ below index opened =>
    have hpushed := h.valid.stands_push h.opens opened
    have hdefined := hpushed.valid.define (hpushed.valid.live_of_active hpushed.active) name
      (World.storable_plain (v := .number x) rfl)
    exact ⟨hdefined, by simp [State.define, hpushed.active]⟩
  | @next n env held line name body i stop x σ σ₁ below index ended =>
    have hagree := (simulated clock n).turn h.valid.paired h.active rfl [] name body x
    obtain ⟨hvalid, hactive⟩ := hagree.of_done ended
    exact ⟨hvalid, by rw [hactive]; exact h.active⟩

theorem Ready.reaches (h : m.Ready) (hpath : ReflTransGen (Starts (.recycling clock)) m m') :
    m'.Ready := by
  induction hpath with
  | refl => exact h
  | tail _ hstarts ih => exact ih.starts hstarts

/-- **A ready moment ends in a valid arena**, in which the same frames are active. -/
theorem Ready.valid_of_end? (h : m.Ready) (hend : m.end? (.recycling clock) = some σ') :
    (σ'.world m.task.held).Valid ∧
      ∀ s, (σ'.arena.frame s).active = (m.state.arena.frame s).active := by
  obtain ⟨n, task, σ⟩ := m
  have hsim := simulated clock n
  cases task with
  | evaluate env held e => exact (hsim.evaluate h.valid.paired h.active rfl [] e).of_state? hend
  | evaluateAll env held es =>
    exact (hsim.evaluateAll h.valid.paired h.active rfl [] es).of_state? hend
  | call held line callee args =>
    obtain ⟨hvalid, hcallee, hargs⟩ := h
    exact (hsim.call hvalid.paired [] line hcallee hargs).of_state? hend
  | execute env held s => exact (hsim.execute h.valid.paired h.active rfl [] s).of_state? hend
  | executeAll env held ss =>
    exact (hsim.executeAll h.valid.paired h.active rfl [] ss).of_state? hend
  | iterate env held line name body i stop =>
    exact (hsim.iterate h.valid.paired h.active rfl [] line name body i stop).of_state? hend

/-- **A ready moment leaves nothing open.** -/
theorem Ready.balanced (h : m.Ready) (hend : m.end? (.recycling clock) = some σ') :
    Balanced m.state σ' := by
  obtain ⟨hvalid, hactive⟩ := h.valid_of_end? hend
  refine ⟨hactive, depth_of_end? hend, fun live closed => ?_⟩
  exact (hvalid.active_or_captured live).resolve_left closed

/-! ## Frames that stay behind -/

/-- A function is declared in a frame other than the globals. -/
inductive DeclaresInside : Moment → Prop
  | intro {n env held line x params body σ} (inside : env ≠ globals) :
    DeclaresInside ⟨n + 1, .execute env held (.function line x params body), σ⟩

/-- The moment opens a frame, and before that a collection frees others. -/
def Collects (m : Moment) : Prop :=
  ∃ env held, m.Opens env held ∧
    (m.state.arena.makeRoom held).liveFrames < m.state.arena.liveFrames

/-- **Nothing is left behind** between the start of a moment and a later state: no frame is live or
captured that was not, and only a collection has freed a frame. -/
structure Settles (host : Host) (m : Moment) (σ' : State) : Prop where
  live {s : Slot} (h : (σ'.arena.frame s).live) : (m.state.arena.frame s).live
  captured {s : Slot} (h : (σ'.arena.frame s).captured) : (m.state.arena.frame s).captured
  lost {s : Slot} (h : (m.state.arena.frame s).live) (gone : ¬ (σ'.arena.frame s).live) :
    ∃ m', ReflTransGen (Starts host) m m' ∧ m'.Collects

end Moment

theorem Arena.capture_of_captured {a : Arena} {s : Slot} (h : (a.frame s).captured) :
    a.capture s = a := by
  unfold capture
  cases a.frames.size with
  | zero => rfl
  | succ n => exact if_pos h

theorem touches_of_declareFunction {host : Host} {env : Slot} {held : List Value} {x : String} {params : List String}
    {body : List Stmt} {σ σ' : State} (h : (σ.arena.frame env).captured)
    (hdone : declareFunction host env held x params body σ = .done () σ') : σ.Touches σ' := by
  cases hdone
  let f : Closure := ⟨σ.functions, x, params, body, env⟩
  have hdefined := State.Touches.define { σ with arena := host.track f held σ.arena } env x
    (.function f)
  refine ⟨rfl, fun s => ?_⟩
  dsimp only
  rw [Arena.capture_of_captured h, ← Host.frame_track host f held σ.arena s]
  exact hdefined.frame s

namespace Moment

variable {clock : Nat → Number} {m m' : Moment} {σ σ' : State}

theorem Ready.opens {env : Slot} {held : List Value} (h : m.Ready) (hopens : m.Opens env held) :
    (m.state.world held).Valid ∧ (m.state.world held).Opens env := by
  cases hopens with
  | block => exact ⟨h.valid, h.opens⟩
  | call _ =>
    obtain ⟨hvalid, hcallee, -⟩ := h
    exact ⟨hvalid, .inr ⟨_, hcallee, hvalid.tracked (.inl hcallee), rfl⟩⟩
  | turn _ _ => exact ⟨h.valid, h.opens⟩

theorem Ready.collects {env s : Slot} {held : List Value} (h : m.Ready)
    (hopens : m.Opens env held) (hs : (m.state.arena.frame s).live)
    (hgone : ¬ ((m.state.arena.makeRoom held).frame s).live) : m.Collects := by
  obtain ⟨hvalid, -⟩ := h.opens hopens
  refine ⟨env, held, hopens, ?_⟩
  refine hvalid.toShaped.liveFrames_lt hvalid.makeRoom.toShaped (fun t ht => ?_) hs hgone
  rwa [Arena.frame_makeRoom_of_live ht] at ht

/-- What is started in a frame of its own settles: the frame is not captured, and so it is freed. -/
theorem Inside.settles {s : Slot} {calls : Nat} (h : m.Inside (.recycling clock) m' s calls)
    (ready : m.Ready) (hsettles : m'.Settles (.recycling clock) σ') :
    m.Settles (.recycling clock)
      (State.release (.recycling clock) s { σ' with depth := σ'.depth - calls }) := by
  obtain @⟨env, held, σ₁, σ₂, starts, opens, opened, touches, state, -⟩ := h
  obtain ⟨hvalid, -⟩ := ready.opens opens
  obtain ⟨hself, hother, hnew⟩ := hvalid.frame_opened opened
  have hlive (t : Slot) : (m'.state.arena.frame t).live = (σ₁.arena.frame t).live := by
    rw [state]
    exact touches.live t
  have hcaptured (t : Slot) : (m'.state.arena.frame t).captured = (σ₁.arena.frame t).captured := by
    rw [state]
    exact touches.captured t
  have hfree : ¬ (σ'.arena.frame s).captured := by
    intro h
    have hfresh := hsettles.captured h
    rw [hcaptured, hself] at hfresh
    cases hfresh
  have hend (t : Slot) : (State.release (.recycling clock) s
      { σ' with depth := σ'.depth - calls }).arena.frame t =
        if t = s then {} else σ'.arena.frame t := by
    rw [← Arena.frame_freeSlot]
    exact congrArg (Arena.frame · t) (if_neg hfree)
  constructor
  · intro t ht
    rw [hend] at ht
    split_ifs at ht with hts
    have ht' := hsettles.live ht
    rw [hlive, hother t hts] at ht'
    rwa [Arena.frame_makeRoom_of_live ht'] at ht'
  · intro t ht
    rw [hend] at ht
    split_ifs at ht with hts
    have ht' := hsettles.captured ht
    rw [hcaptured, hother t hts] at ht'
    have hl : ((m.state.arena.makeRoom held).frame t).live := by
      by_contra hl
      rw [hvalid.makeRoom.empty hl] at ht'
      cases ht'
    rwa [Arena.frame_makeRoom_of_live hl] at ht'
  · intro t ht hgone
    by_cases hl : ((m.state.arena.makeRoom held).frame t).live
    · have hts : t ≠ s := fun e => hnew (e ▸ hl)
      rw [hend, if_neg hts] at hgone
      rw [← hother t hts, ← hlive] at hl
      obtain ⟨m'', hpath, hcollects⟩ := hsettles.lost hl hgone
      exact ⟨m'', .head starts hpath, hcollects⟩
    · exact ⟨m, .refl, ready.collects opens ht hl⟩

/-- One step: nothing is left behind on the course of a moment that declares no function inside a
frame, if all that it starts leaves nothing behind. -/
theorem Course.settles (h : m.Course (.recycling clock) σ) (ready : m.Ready)
    (hquiet : ¬ m.DeclaresInside)
    (hstarted : ∀ m' σ', m.Starts (.recycling clock) m' → m'.end? (.recycling clock) = some σ' →
      m'.Settles (.recycling clock) σ') : m.Settles (.recycling clock) σ := by
  induction h with
  | start => exact ⟨id, id, fun h gone => absurd h gone⟩
  | touched _ touches ih =>
    exact {
      live := fun h => ih.live (by rwa [← touches.live])
      captured := fun h => ih.captured (by rwa [← touches.captured])
      lost := fun h gone => ih.lost h (by rwa [← touches.live]) }
  | @declared n env held line x params body σ σ' declares done =>
    subst declares
    have henv : env = globals := by
      by_contra hne
      exact hquiet (.intro hne)
    subst henv
    have htouches := touches_of_declareFunction ready.valid.globals_captured done
    exact {
      live := fun h => by rwa [← htouches.live]
      captured := fun h => by rwa [← htouches.captured]
      lost := fun h gone => absurd h (by rwa [← htouches.live]) }
  | @started m' σ' starts _ ended ih =>
    have hsettles := hstarted m' σ' starts ended
    refine ⟨fun h => ih.live (hsettles.live h), fun h => ih.captured (hsettles.captured h),
      fun {s} h gone => ?_⟩
    by_cases hl : (m'.state.arena.frame s).live
    · obtain ⟨m'', hpath, hcollects⟩ := hsettles.lost hl gone
      exact ⟨m'', .head starts hpath, hcollects⟩
    · exact ih.lost h hl
  | @framed m' s calls σ' inside ended =>
    exact inside.settles ready (hstarted m' σ' inside.starts ended)

/-- **Nothing is left behind** by a moment that never declares a function inside a frame. -/
theorem Ready.settles (ready : m.Ready)
    (hquiet : ∀ m', ReflTransGen (Starts (.recycling clock)) m m' → ¬ m'.DeclaresInside)
    (hend : m.end? (.recycling clock) = some σ') : m.Settles (.recycling clock) σ' := by
  generalize hn : m.fuel = n
  induction n generalizing m σ' with
  | zero =>
    refine (course_of_end? hend).settles ready (hquiet m .refl) fun m' _ starts _ => ?_
    exact absurd (starts.fuel.symm.trans hn) (Nat.succ_ne_zero _)
  | succ n ih =>
    refine (course_of_end? hend).settles ready (hquiet m .refl) fun m' σ₁ starts ended => ?_
    exact ih (ready.starts starts) (fun m'' hpath => hquiet m'' (.head starts hpath)) ended
      (Nat.succ.inj (starts.fuel.symm.trans hn))

end Moment

/-! ## Sessions -/

/-- The statements of what a session is given, unless there are errors in its text. -/
def Input.checked : Input → Except (List Error) (List Stmt)
  | .source text => program text
  | .statements ss => .ok ss

theorem Input.run_eq (u : Input) (host : Host) (fuel : Nat) (σ : State) :
    u.run host fuel σ = interpretChecked host fuel u.checked σ := by
  cases u <;> rfl

/-- **The states of an interpreter between units.** -/
inductive InSession (host : Host) : State → Prop
  | start : InSession host .start
  | ran {fuel : Nat} {u : Input} {r : Report} {σ σ' : State} (h : InSession host σ)
      (ran : u.run host fuel σ = some (r, σ')) : InSession host σ'

/-- **The moments at which the statements of a unit start**, one after another. -/
inductive Begun (host : Host) (fuel : Nat) : Value → List Stmt → State → Moment → Prop
  | first {last s ss σ} : Begun host fuel last (s :: ss) σ ⟨fuel, .topLevel last s, σ⟩
  | later {last s ss σ v σ₁ m} (ended : topLevel host fuel [last] s σ = .done v σ₁)
      (h : Begun host fuel v ss σ₁ m) : Begun host fuel last (s :: ss) σ m

/-- **The moments of a unit** that is run from a state. -/
def Within (host : Host) (fuel : Nat) (ss : List Stmt) (σ : State) (m : Moment) : Prop :=
  ∃ m₀, Begun host fuel .null ss { σ with output := "" } m₀ ∧ ReflTransGen (Moment.Starts host) m₀ m

/-- **The states of an interpreter**, between units and at the moments of a unit, with the values
that are held by evaluations around. -/
inductive Reachable (host : Host) : List Value → State → Prop
  | between {σ} (h : InSession host σ) : Reachable host [] σ
  | during {fuel ss σ m} (h : InSession host σ) (moment : Within host fuel ss σ m) :
    Reachable host m.task.held m.state

section TopLevel

variable {clock : Nat → Number} {fuel : Nat} {last v : Value} {s : Stmt} {ss : List Stmt}
  {σ σ' : State} {ending : Ending}

theorem end?_topLevel (host : Host) (fuel : Nat) (last : Value) (s : Stmt) (σ : State) :
    Moment.end? host ⟨fuel, .topLevel last s, σ⟩ = (topLevel host fuel [last] s σ).state? := by
  have hexecute : (execute host fuel globals [last] s σ).state? =
      ((do
        let _ ← execute host fuel globals [last] s
        return .null : Eval Value) σ).state? := by
    change _ = (Eval.andThen _ _ σ).state?
    unfold Eval.andThen
    cases execute host fuel globals [last] s σ <;> rfl
  cases s with
  | expression => rfl
  | _ => exact hexecute

theorem State.Stands.ready_topLevel (h : σ.Stands globals [last]) (fuel : Nat) (s : Stmt) :
    Moment.Ready ⟨fuel, .topLevel last s, σ⟩ := by
  cases s <;> exact h

theorem State.Stands.topLevel (h : σ.Stands globals [last])
    (hrun : topLevel (.recycling clock) fuel [last] s σ = .done v σ') :
    σ'.Stands globals [v] := by
  obtain ⟨hvalid, -⟩ := (h.valid.paired.topLevel clock fuel [] s).of_done hrun
  have hv := hvalid.drop (List.subset_append_left [v] [last])
  exact ⟨hv, hv.globals_active⟩

theorem State.Stands.balanced (h : σ.Stands globals [last])
    (hrun : (Scriptlet.topLevel (.recycling clock) fuel [last] s σ).state? = some σ') :
    Balanced σ σ' :=
  (h.ready_topLevel fuel s).balanced (by rwa [end?_topLevel])

theorem Balanced.trans {σ'' : State} (h : Balanced σ σ') (h' : Balanced σ' σ'') :
    Balanced σ σ'' :=
  ⟨fun s => (h'.active s).trans (h.active s), h'.depth.trans h.depth, h'.captured⟩

theorem Begun.ready {m : Moment} (h : Begun (.recycling clock) fuel last ss σ m)
    (hs : σ.Stands globals [last]) : m.Ready ∧ m.state.depth = σ.depth := by
  induction h with
  | first => exact ⟨hs.ready_topLevel _ _, rfl⟩
  | later ended _ ih =>
    obtain ⟨hready, hdepth⟩ := ih (hs.topLevel ended)
    exact ⟨hready, hdepth.trans (hs.balanced (Outcome.state?_of_done ended)).depth⟩

/-- **The statements of a unit leave nothing open**, also if one of them fails. -/
theorem balanced_topLevelFrom (h : topLevelFrom (.recycling clock) fuel last ss σ = some ending)
    (hs : σ.Stands globals [last]) : Balanced σ ending.state := by
  induction ss generalizing last σ with
  | nil =>
    cases h
    exact ⟨fun _ => rfl, rfl, fun live closed =>
      (hs.valid.active_or_captured live).resolve_left closed⟩
  | cons s ss ih =>
    simp only [topLevelFrom] at h
    cases hrun : topLevel (.recycling clock) fuel [last] s σ with
    | done v σ₁ =>
      rw [hrun] at h
      exact (hs.balanced (Outcome.state?_of_done hrun)).trans (ih h (hs.topLevel hrun))
    | failed e σ₁ =>
      rw [hrun] at h
      cases h
      exact hs.balanced (Outcome.state?_of_failed hrun)
    | outOfFuel =>
      rw [hrun] at h
      cases h

/-- **The statements of a unit leave nothing behind** if none declares a function inside a frame. -/
theorem settles_topLevelFrom (h : topLevelFrom (.recycling clock) fuel last ss σ = some ending)
    (hs : σ.Stands globals [last])
    (hquiet : ∀ m₀ m, Begun (.recycling clock) fuel last ss σ m₀ →
      ReflTransGen (Moment.Starts (.recycling clock)) m₀ m → ¬ m.DeclaresInside) :
    (∀ t, (ending.state.arena.frame t).live → (σ.arena.frame t).live) ∧
      ∀ t, (σ.arena.frame t).live → ¬ (ending.state.arena.frame t).live →
        ∃ m₀ m, Begun (.recycling clock) fuel last ss σ m₀ ∧
          ReflTransGen (Moment.Starts (.recycling clock)) m₀ m ∧ m.Collects := by
  induction ss generalizing last σ with
  | nil =>
    cases h
    exact ⟨fun _ => id, fun _ ht hgone => absurd ht hgone⟩
  | cons s ss ih =>
    have hfirst : ∀ σ₁, (topLevel (.recycling clock) fuel [last] s σ).state? = some σ₁ →
        Moment.Settles (.recycling clock) ⟨fuel, .topLevel last s, σ⟩ σ₁ := fun σ₁ hend =>
      (hs.ready_topLevel fuel s).settles (fun m => hquiet _ m .first) (by rwa [end?_topLevel])
    simp only [topLevelFrom] at h
    cases hrun : topLevel (.recycling clock) fuel [last] s σ with
    | done v σ₁ =>
      rw [hrun] at h
      have hsettles := hfirst σ₁ (Outcome.state?_of_done hrun)
      obtain ⟨hlive, hlost⟩ := ih h (hs.topLevel hrun) fun m₀ m hbegun =>
        hquiet m₀ m (.later hrun hbegun)
      refine ⟨fun t ht => hsettles.live (hlive t ht), fun t ht hgone => ?_⟩
      by_cases hl : (σ₁.arena.frame t).live
      · obtain ⟨m₀, m, hbegun, hpath, hcollects⟩ := hlost t hl hgone
        exact ⟨m₀, m, .later hrun hbegun, hpath, hcollects⟩
      · obtain ⟨m, hpath, hcollects⟩ := hsettles.lost ht hl
        exact ⟨_, m, .first, hpath, hcollects⟩
    | failed e σ₁ =>
      rw [hrun] at h
      cases h
      have hsettles := hfirst σ₁ (Outcome.state?_of_failed hrun)
      refine ⟨fun t ht => hsettles.live ht, fun t ht hgone => ?_⟩
      obtain ⟨m, hpath, hcollects⟩ := hsettles.lost ht hgone
      exact ⟨_, m, .first, hpath, hcollects⟩
    | outOfFuel =>
      rw [hrun] at h
      cases h

end TopLevel

/-- **Only the globals are active, and no call is open.** -/
structure Idle (σ : State) : Prop where
  valid : (σ.world []).Valid
  active (s : Slot) : (σ.arena.frame s).active ↔ s = globals
  depth : σ.depth = 0

section Idle

variable {clock : Nat → Number} {fuel : Nat} {u : Input} {r : Report} {ss : List Stmt}
  {σ σ' : State}

theorem idle_start : Idle .start where
  valid := Paired.start.valid
  active s := by
    refine ⟨fun h => ?_, fun h => h ▸ Paired.start.valid.globals_active⟩
    have hlt := Arena.lt_size_of_live (Paired.start.valid.live_of_active h)
    exact Nat.lt_one_iff.mp hlt
  depth := rfl

theorem Idle.stands (h : Idle σ) : State.Stands { σ with output := "" } globals [.null] :=
  ⟨h.valid.hold (World.storable_plain rfl), h.valid.globals_active⟩

theorem exists_ending_of_run {host : Host} (h : u.run host fuel σ = some (r, σ')) :
    σ' = σ ∨ ∃ ss ending, u.checked = .ok ss ∧
      topLevelFrom host fuel .null ss { σ with output := "" } = some ending ∧
        σ' = ending.state := by
  rw [u.run_eq] at h
  cases hchecked : u.checked with
  | error es =>
    rw [hchecked] at h
    cases h
    exact .inl rfl
  | ok ss =>
    rw [hchecked] at h
    obtain ⟨ending, hending, heq⟩ := Option.map_eq_some_iff.mp h
    cases heq
    exact .inr ⟨ss, ending, rfl, hending, rfl⟩

/-- **After a unit, failed or not, an interpreter is idle again.** -/
theorem Idle.ran (h : Idle σ) (hran : u.run (.recycling clock) fuel σ = some (r, σ')) :
    Idle σ' := by
  have hvalid : (σ'.world []).Valid := by
    have halike := h.valid.paired.input clock fuel u
    rw [hran] at halike
    generalize u.run (.keeping clock) fuel σ = o at halike
    cases halike with
    | reported ψ paired => exact paired.valid
  obtain rfl | ⟨ss, ending, -, hending, rfl⟩ := exists_ending_of_run hran
  · exact h
  · have hbalanced := balanced_topLevelFrom hending h.stands
    refine ⟨hvalid, fun s => ?_, hbalanced.depth.trans h.depth⟩
    rw [hbalanced.active]
    exact h.active s

theorem InSession.idle (h : InSession (.recycling clock) σ) : Idle σ := by
  induction h with
  | start => exact idle_start
  | ran _ hran ih => exact ih.ran hran

/-- **The arena of an interpreter is valid at all times**, and no more calls are open than are
allowed. -/
theorem Reachable.valid {held : List Value} (h : Reachable (.recycling clock) held σ) :
    (σ.world held).Valid ∧ σ.depth ≤ maxCallDepth := by
  cases h with
  | between h => exact ⟨h.idle.valid, h.idle.depth ▸ Nat.zero_le _⟩
  | @during fuel ss σ₀ m h moment =>
    obtain ⟨m₀, hbegun, hpath⟩ := moment
    obtain ⟨hready, hdepth⟩ := hbegun.ready h.idle.stands
    refine ⟨(hready.reaches hpath).valid, Moment.depth_of_starts hpath ?_⟩
    rw [hdepth]
    exact h.idle.depth ▸ Nat.zero_le _

/-- **A unit that declares no function inside a frame leaves no frame behind**, and only a
collection lowers the number of live frames. -/
theorem liveFrames_of_run (h : Idle σ) (hran : u.run (.recycling clock) fuel σ = some (r, σ'))
    (hquiet : ∀ ss m, u.checked = .ok ss → Within (.recycling clock) fuel ss σ m →
      ¬ m.DeclaresInside) :
    σ'.arena.liveFrames = σ.arena.liveFrames ∨
      σ'.arena.liveFrames < σ.arena.liveFrames ∧
        ∃ ss m, u.checked = .ok ss ∧ Within (.recycling clock) fuel ss σ m ∧ m.Collects := by
  have hshaped := (h.ran hran).valid.toShaped
  obtain rfl | ⟨ss, ending, hchecked, hending, rfl⟩ := exists_ending_of_run hran
  · exact .inl rfl
  obtain ⟨hlive, hlost⟩ := settles_topLevelFrom hending h.stands fun m₀ m hbegun hpath =>
    hquiet ss m hchecked ⟨m₀, hbegun, hpath⟩
  rcases (h.valid.toShaped.liveFrames_le hshaped hlive).eq_or_lt with heq | hlt
  · exact .inl heq
  refine .inr ⟨hlt, ss, ?_⟩
  -- fewer frames are live, so that some frame was lost
  obtain ⟨t, ht, hgone⟩ : ∃ t, (σ.arena.frame t).live ∧ ¬ (ending.state.arena.frame t).live := by
    by_contra hall
    push Not at hall
    exact absurd (hshaped.liveFrames_le h.valid.toShaped hall) (Nat.not_le.mpr hlt)
  obtain ⟨m₀, m, hbegun, hpath, hcollects⟩ := hlost t ht hgone
  exact ⟨m, hchecked, ⟨m₀, hbegun, hpath⟩, hcollects⟩

end Idle

/-- **Frames and open calls are balanced on every way out.** At every time of an interpreter and in
every active environment, an expression or statement that ends, with a value, by leaving a function
or with an error, leaves the same frames active and the same calls open, and all other live frames
are captured; on the way there never are more open calls than allowed. After every unit only the
globals are active and no call is open. If a unit declares no function inside a frame then as many
frames are live as before, unless a collection has lowered their number. -/
theorem frames_balanced (clock : Nat → Number) :
    (∀ held σ env n, Reachable (.recycling clock) held σ → (σ.arena.frame env).active →
      (∀ e v σ', evaluate (.recycling clock) n env held e σ = .done v σ' → Balanced σ σ') ∧
      (∀ e err σ', evaluate (.recycling clock) n env held e σ = .failed err σ' →
        Balanced σ σ') ∧
      (∀ s flow σ', execute (.recycling clock) n env held s σ = .done flow σ' →
        Balanced σ σ') ∧
      (∀ s err σ', execute (.recycling clock) n env held s σ = .failed err σ' →
        Balanced σ σ') ∧
      (∀ e m, ReflTransGen (Moment.Starts (.recycling clock)) ⟨n, .evaluate env held e, σ⟩ m →
        m.state.depth ≤ maxCallDepth) ∧
      ∀ s m, ReflTransGen (Moment.Starts (.recycling clock)) ⟨n, .execute env held s, σ⟩ m →
        m.state.depth ≤ maxCallDepth) ∧
    (∀ σ, InSession (.recycling clock) σ →
      (∀ s, (σ.arena.frame s).active ↔ s = globals) ∧ σ.depth = 0) ∧
    ∀ σ fuel u r σ', InSession (.recycling clock) σ →
      Input.run (.recycling clock) fuel u σ = some (r, σ') →
      (∀ ss m, u.checked = .ok ss → Within (.recycling clock) fuel ss σ m →
        ¬ m.DeclaresInside) →
      σ'.arena.liveFrames = σ.arena.liveFrames ∨
        σ'.arena.liveFrames < σ.arena.liveFrames ∧
          ∃ ss m, u.checked = .ok ss ∧ Within (.recycling clock) fuel ss σ m ∧ m.Collects := by
  refine ⟨?_, fun σ h => ⟨h.idle.active, h.idle.depth⟩, ?_⟩
  · intro held σ env n hreachable hactive
    obtain ⟨hvalid, hdepth⟩ := hreachable.valid
    have hevaluate (e : Expr) : Moment.Ready ⟨n, .evaluate env held e, σ⟩ := ⟨hvalid, hactive⟩
    have hexecute (s : Stmt) : Moment.Ready ⟨n, .execute env held s, σ⟩ := ⟨hvalid, hactive⟩
    refine ⟨?_, ?_, ?_, ?_, ?_, ?_⟩
    · intro e v σ' hrun
      exact (hevaluate e).balanced (Outcome.state?_of_done hrun)
    · intro e err σ' hrun
      exact (hevaluate e).balanced (Outcome.state?_of_failed hrun)
    · intro s flow σ' hrun
      exact (hexecute s).balanced (Outcome.state?_of_done hrun)
    · intro s err σ' hrun
      exact (hexecute s).balanced (Outcome.state?_of_failed hrun)
    · exact fun e m hpath => Moment.depth_of_starts hpath hdepth
    · exact fun s m hpath => Moment.depth_of_starts hpath hdepth
  · intro σ fuel u r σ' h hran hquiet
    exact liveFrames_of_run h.idle hran hquiet

/-- A block that fails is closed, and a unit with an empty block leaves no frame behind. -/
theorem frames_balanced_block :
    (∃ err σ', execute (.recycling fun _ => ⟨0⟩) 5 globals []
      (.block 1 [.expression 1 (.get 1 "size" (.literal 1 .null))]) .start = .failed err σ' ∧
        Balanced .start σ') ∧
    ∃ r σ', Input.run (.recycling fun _ => ⟨0⟩) 3 (.statements [.block 1 []]) .start =
        some (r, σ') ∧
      (∀ m, Within (.recycling fun _ => ⟨0⟩) 3 [.block 1 []] .start m → ¬ m.DeclaresInside) ∧
      (σ'.arena.liveFrames = State.start.arena.liveFrames ∨
        σ'.arena.liveFrames < State.start.arena.liveFrames ∧
          ∃ ss m, (Input.statements [.block 1 []]).checked = .ok ss ∧
            Within (.recycling fun _ => ⟨0⟩) 3 ss .start m ∧ m.Collects) := by
  obtain ⟨hbalanced, -, hframes⟩ := frames_balanced fun _ => ⟨0⟩
  constructor
  · have hfailed : ∃ err σ', execute (.recycling fun _ => ⟨0⟩) 5 globals []
        (.block 1 [.expression 1 (.get 1 "size" (.literal 1 .null))]) .start =
          .failed err σ' := by
      simp only [execute, executeAll, evaluate]
      exact ⟨_, _, rfl⟩
    obtain ⟨err, σ', hfailed⟩ := hfailed
    obtain ⟨-, -, -, hexecute, -⟩ := hbalanced [] .start globals 5 (.between .start) rfl
    exact ⟨err, σ', hfailed, hexecute _ err σ' hfailed⟩
  · have hran : ∃ r σ', Input.run (.recycling fun _ => ⟨0⟩) 3 (.statements [.block 1 []]) .start =
        some (r, σ') := by
      simp only [Input.run, interpret, topLevelFrom, topLevel, execute, executeAll]
      exact ⟨_, _, rfl⟩
    have hquiet : ∀ m, Within (.recycling fun _ => ⟨0⟩) 3 [.block 1 []] .start m →
        ¬ m.DeclaresInside := by
      rintro m ⟨m₀, hbegun, hpath⟩ hinside
      cases hbegun with
      | later _ h => cases h
      | first =>
        rcases hpath.cases_head with rfl | ⟨m₁, hstarts, hrest⟩
        · cases hinside
        · cases hstarts with
          | part h => cases h
          | first part => cases part
          | block _ =>
            rcases hrest.cases_head with rfl | ⟨m₂, hstarts, -⟩
            · cases hinside
            · cases hstarts with
              | part h => cases h
    obtain ⟨r, σ', hran⟩ := hran
    refine ⟨r, σ', hran, hquiet, hframes _ _ _ _ _ .start hran ?_⟩
    rintro ss m ⟨⟩ hwithin
    exact hquiet m hwithin

end Scriptlet
