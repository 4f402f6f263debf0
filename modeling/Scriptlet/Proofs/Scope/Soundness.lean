import Scriptlet.Proofs.Eval.Beside
import Scriptlet.Proofs.Eval.Failures

/-!
# Soundness of scope analysis

What scope analysis finds in the text of a program holds at every moment of every session: a
variable that was found in a scope is bound in the frame of that scope by the time it is read, and
no frame other than the globals is ever asked to bind a name twice.

* `Initializing`: a moment lies inside the initializer of a variable.
* `Good`: **the invariant of all moments**; `Good.starts` is one step and `Visited.good` the run.
* `stays`: statements outside functions give nothing back.
* `resolution_sound`: **what scope analysis ensures of every session**.
-/

namespace Scriptlet

open Arena (globals Lays Layered)
open Relation (ReflTransGen)

/-! ## Parts of scoped trees -/

theorem Expr.Scoped.first {ordered : Prop} {Γ : Layers} {pending : Option String} {e e' : Expr}
    (h : e.Scoped ordered Γ pending) (hfirst : e.first? = some e') :
    e'.Scoped ordered Γ pending := by
  cases e <;> cases hfirst <;> first | exact h | exact h.1

theorem Stmt.allScoped_nil {ordered : Prop} {ss : List Stmt} :
    Stmt.AllScoped ordered [] ss ↔ ∀ s ∈ ss, s.Scoped ordered [] := by
  induction ss with
  | nil => simp [Stmt.AllScoped]
  | cons s ss ih => rw [List.forall_mem_cons, ← ih, Stmt.AllScoped, Layers.bind]

/-! ## The invariant -/

/-- **A moment lies inside the initializer of a variable**: the variable is being declared in `env`,
and the moment evaluates a part of its initial value. -/
def Initializing (host : Host) (fuel : Nat) (sources : List String) (env : Slot) (x : String)
    (m : Moment) : Prop :=
  ∃ n held line e σ,
    Visited host fuel sources ⟨n + 1, .execute env held (.declare line x (some e)), σ⟩ ∧
      ReflTransGen (Moment.Part host) ⟨n, .evaluate env held e, σ⟩ m

theorem Initializing.part {host : Host} {fuel : Nat} {sources : List String} {env : Slot}
    {x : String} {m m' : Moment} (h : Initializing host fuel sources env x m)
    (hpart : m.Part host m') : Initializing host fuel sources env x m' := by
  obtain ⟨n, held, line, e, σ, hvisited, hpath⟩ := h
  exact ⟨n, held, line, e, σ, hvisited, hpath.tail hpart⟩

section Good

variable (ordered : Prop) (clock : Nat → Number) (fuel : Nat) (sources : List String)

/-- **What holds at every moment**, beside a session that keeps all frames: the tree is scoped where
it stands, and while a statement is executed the frame of its scope binds exactly what has been
declared. A name that cannot be read is being initialised. -/
inductive Good : Moment → Prop
  | evaluate {n env held e σ Γ pending} {w : Beside σ} (holds : w.Holds ordered held)
      (placed : w.Placed env Γ) (inScope : Expr.Scoped ordered Γ pending e)
      (initializing : ∀ x, pending = some x →
        Initializing (.recycling clock) fuel sources env x ⟨n, .evaluate env held e, σ⟩) :
    Good ⟨n, .evaluate env held e, σ⟩
  | evaluateAll {n env held es σ Γ pending} {w : Beside σ} (holds : w.Holds ordered held)
      (placed : w.Placed env Γ) (inScope : Expr.AllScoped ordered Γ pending es)
      (initializing : ∀ x, pending = some x →
        Initializing (.recycling clock) fuel sources env x ⟨n, .evaluateAll env held es, σ⟩) :
    Good ⟨n, .evaluateAll env held es, σ⟩
  | call {n held line callee args σ} {w : Beside σ} (holds : w.Holds ordered held)
      (mem : callee ∈ held) (subset : args ⊆ held) (callee_sound : w.Sound ordered callee)
      (args_sound : ∀ v ∈ args, w.Sound ordered v) : Good ⟨n, .call held line callee args, σ⟩
  | execute {n env held s σ Γ} {w : Beside σ} (holds : w.Holds ordered held)
      (placed : w.Placed env Γ) (frame : w.Exact env Γ) (inScope : Stmt.Scoped ordered Γ s) :
    Good ⟨n, .execute env held s, σ⟩
  | executeAll {n env held ss σ Γ} {w : Beside σ} (holds : w.Holds ordered held)
      (placed : w.Placed env Γ) (frame : w.Exact env Γ) (inScope : Stmt.AllScoped ordered Γ ss) :
    Good ⟨n, .executeAll env held ss, σ⟩
  | iterate {n env held line name body i stop σ Γ} {w : Beside σ} (holds : w.Holds ordered held)
      (placed : w.Placed env Γ) (frame : w.Exact env Γ) (plain : body.isDeclaration = false)
      (inScope : Stmt.Scoped ordered (.ofLoop name :: Γ) body) :
    Good ⟨n, .iterate env held line name body i stop, σ⟩

variable {ordered clock fuel sources} {m m' : Moment}

theorem Good.part (h : Good ordered clock fuel sources m) (hpart : m.Part (.recycling clock) m') :
    Good ordered clock fuel sources m' := by
  cases hpart with
  | first part =>
    cases h with
    | evaluate holds placed inScope hinit =>
      exact .evaluate holds placed (inScope.first part) fun x hx =>
        (hinit x hx).part (.first part)
  | right ended =>
    cases h with
    | evaluate holds placed inScope hinit =>
      obtain ⟨w', holds', leads, -⟩ := holds.evaluate placed inScope.1 ended
      exact .evaluate holds' (placed.leads leads) inScope.2 fun x hx =>
        (hinit x hx).part (.right ended)
  | undecided ended decides =>
    cases h with
    | evaluate holds placed inScope hinit =>
      obtain ⟨w', holds', leads, -⟩ := holds.evaluate placed inScope.1 ended
      exact .evaluate holds' (placed.leads leads) inScope.2 fun x hx =>
        (hinit x hx).part (.undecided ended decides)
  | arguments ended =>
    cases h with
    | evaluate holds placed inScope hinit =>
      obtain ⟨w', holds', leads, -⟩ := holds.evaluate placed inScope.1 ended
      exact .evaluateAll holds' (placed.leads leads) inScope.2 fun x hx =>
        (hinit x hx).part (.arguments ended)
  | assigned ended =>
    cases h with
    | evaluate holds placed inScope hinit =>
      obtain ⟨w', holds', leads, -⟩ := holds.evaluate placed inScope.1 ended
      exact .evaluate (holds'.mono (List.subset_cons_self _ _)) (placed.leads leads) inScope.2
        fun x hx => (hinit x hx).part (.assigned ended)
  | head =>
    cases h with
    | evaluateAll holds placed inScope hinit =>
      exact .evaluate holds placed inScope.1 fun x hx => (hinit x hx).part .head
  | tail ended =>
    cases h with
    | evaluateAll holds placed inScope hinit =>
      obtain ⟨w', holds', leads, -⟩ := holds.evaluate placed inScope.1 ended
      exact .evaluateAll holds' (placed.leads leads) inScope.2 fun x hx =>
        (hinit x hx).part (.tail ended)

theorem Good.first {n : Nat} {env : Slot} {held : List Value} {s : Stmt} {e : Expr} {σ : State}
    (h : Good ordered clock fuel sources ⟨n + 1, .execute env held s, σ⟩)
    (hvisited : Visited (.recycling clock) fuel sources ⟨n + 1, .execute env held s, σ⟩)
    (hfirst : s.first? = some e) :
    Good ordered clock fuel sources ⟨n, .evaluate env held e, σ⟩ := by
  cases h with
  | @execute _ _ _ _ _ Γ w holds placed _ inScope =>
    have hplain : e.Scoped ordered Γ none →
        Good ordered clock fuel sources ⟨n, .evaluate env held e, σ⟩ :=
      fun hscoped => .evaluate holds placed hscoped nofun
    cases s with
    | block | function => cases hfirst
    | expression line e' => cases hfirst; exact hplain inScope
    | ifThen line c yes => cases hfirst; exact hplain inScope.1
    | ifElse line c yes no => cases hfirst; exact hplain inScope.1
    | whileLoop line c body => cases hfirst; exact hplain inScope.1
    | forLoop line name c body => cases hfirst; exact hplain inScope.1
    | giveBack line e' =>
      cases e' <;> cases hfirst
      exact hplain inScope
    | declare line name e' =>
      cases e' <;> cases hfirst
      refine .evaluate holds placed inScope.2 fun x hx => ?_
      obtain ⟨l, -, rfl⟩ := Option.map_eq_some_iff.mp hx
      exact ⟨n, held, line, e, σ, hvisited, .refl⟩

/-- A call is about to bind the parameters after `before`, in the frame of its own. -/
theorem Good.parameters {n : Nat} {held : List Value} {line : Nat} {f : Closure}
    {args : List Value} {s : Slot} {σ σ' σ'' : State}
    (h : Good ordered clock fuel sources ⟨n + 1, .call held line (.function f) args, σ⟩)
    (henters : f.Enters args σ) (hopened : State.push (.recycling clock) f.env held σ = (s, σ'))
    {before : List String} (hbefore : before <+: f.params)
    (hbound : bindAll s before args σ' = .done () σ'') :
    f.params.Nodup ∧ ∃ (Γ : Layers) (w : Beside σ''), w.Holds ordered held ∧
      w.Placed s (⟨before.reverse, f.params ++ Stmt.allDeclared f.body⟩ :: Γ) ∧
      w.Exact s (⟨before.reverse, f.params ++ Stmt.allDeclared f.body⟩ :: Γ) ∧
      Stmt.AllScoped ordered (.ofFunction f.params f.body :: Γ) f.body := by
  cases h with
  | call holds hmem hsub hcallee hargs =>
    obtain ⟨hnodup, Γ, hlays, hbody⟩ := hcallee _ rfl
    -- the callee is held, so that its environment survives
    obtain ⟨w₁, holds₁, placed₁, frame₁, hsound⟩ :=
      holds.push (.inr ⟨f, hmem, holds.paired.valid.tracked (.inl hmem), rfl⟩) hlays
        (f.params ++ Stmt.allDeclared f.body) hopened
    obtain ⟨w₂, holds₂, placed₂, frame₂⟩ := holds₁.bindAll placed₁ frame₁
      (List.Subset.trans hbefore.subset (List.subset_append_left _ _))
      (henters.arity ▸ hbefore.length_le) hsub (fun v hv => hsound v (hsub hv) (hargs v hv)) hbound
    exact ⟨hnodup, Γ, w₂, holds₂, placed₂, frame₂, hbody⟩

/-- **The first expression of a statement has ended.** The frame of the statement is as it was. -/
theorem Beside.Holds.first {n : Nat} {env : Slot} {held : List Value} {e : Expr} {v : Value}
    {σ σ' : State} {Γ : Layers} {w : Beside σ} (holds : w.Holds ordered held)
    (placed : w.Placed env Γ) (frame : w.Exact env Γ) (hscoped : e.Scoped ordered Γ none)
    (ended : Scriptlet.evaluate (.recycling clock) n env held e σ = .done v σ') :
    ∃ w' : Beside σ', w'.Holds ordered held ∧ w'.Placed env Γ ∧ w'.Exact env Γ := by
  obtain ⟨w', holds', leads, -⟩ := holds.evaluate placed hscoped ended
  exact ⟨w', holds'.mono (List.subset_cons_self _ _), placed.leads leads,
    frame.leads holds placed leads⟩

/-- **One moment after another**: what a good moment starts is a good moment. -/
theorem Good.starts (h : Good ordered clock fuel sources m)
    (hvisited : Visited (.recycling clock) fuel sources m)
    (hstarts : m.Starts (.recycling clock) m') : Good ordered clock fuel sources m' := by
  cases hstarts with
  | part hpart => exact h.part hpart
  | first hfirst => exact h.first hvisited hfirst
  | body henters hopened hbound =>
    obtain ⟨-, Γ, w₁, holds₁, placed₁, frame₁, hbody⟩ :=
      h.parameters henters hopened (List.prefix_refl _) hbound
    obtain ⟨w₂, holds₂, placed₂, frame₂⟩ := holds₁.counted placed₁ frame₁
    exact .executeAll holds₂ placed₂ frame₂ hbody
  | call ended ended' =>
    cases h with
    | evaluate holds placed inScope hinit =>
      obtain ⟨w₁, holds₁, leads₁, hf⟩ := holds.evaluate placed inScope.1 ended
      obtain ⟨w₂, holds₂, leads₂, hargs⟩ :=
        holds₁.evaluateAll (placed.leads leads₁) inScope.2 ended'
      refine .call (holds₂.mono fun v hv => ?_) List.mem_cons_self
        (fun v hv => List.mem_cons_of_mem _ (List.mem_append_left _ hv))
        (hf.leads List.mem_cons_self leads₂) hargs
      simp only [List.cons_append, List.mem_cons, List.mem_append] at hv ⊢
      tauto
  | block hopened =>
    cases h with
    | execute holds placed _ inScope =>
      obtain ⟨w', holds', placed', frame', -⟩ :=
        holds.push (.inl placed.active) placed.lays (Stmt.allDeclared _) hopened
      exact .executeAll holds' placed' frame' inScope
  | yes ended _ | loop ended _ =>
    cases h with
    | execute holds placed frame inScope =>
      obtain ⟨w', holds', placed', frame'⟩ := holds.first placed frame inScope.1 ended
      exact .execute holds' placed' frame' inScope.2.2
  | branch ended =>
    cases h with
    | execute holds placed frame inScope =>
      obtain ⟨w', holds', placed', frame'⟩ := holds.first placed frame inScope.1 ended
      refine .execute holds' placed' frame' ?_
      split_ifs
      · exact inScope.2.1.2
      · exact inScope.2.2.2
  | again ended _ ended' =>
    cases h with
    | execute holds placed frame inScope =>
      obtain ⟨w₁, holds₁, placed₁, frame₁⟩ := holds.first placed frame inScope.1 ended
      obtain ⟨w₂, holds₂, leads, -⟩ := holds₁.execute placed₁ inScope.2.2 ended'
      rw [Stmt.declared_of_isDeclaration inScope.2.1] at leads
      exact .execute holds₂ (placed₁.leads leads) (frame₁.leads holds₁ placed₁ leads) inScope
  | range ended =>
    cases h with
    | execute holds placed frame inScope =>
      obtain ⟨w', holds', placed', frame'⟩ := holds.first placed frame inScope.1 ended
      exact .iterate holds' placed' frame' inScope.2.1 inScope.2.2
  | head =>
    cases h with
    | executeAll holds placed frame inScope => exact .execute holds placed frame inScope.1
  | tail ended =>
    cases h with
    | executeAll holds placed frame inScope =>
      obtain ⟨w', holds', leads, placed'⟩ := holds.execute placed inScope.1 ended
      exact .executeAll holds' placed' (frame.bind holds placed leads) inScope.2
  | turn _ _ hopened =>
    cases h with
    | iterate holds placed _ _ inScope =>
      obtain ⟨w₁, holds₁, placed₁, frame₁, -⟩ :=
        holds.push (.inl placed.active) placed.lays [_] hopened
      obtain ⟨w₂, holds₂, placed₂, frame₂⟩ := holds₁.index placed₁ frame₁ _
      exact .execute holds₂ placed₂ frame₂ inScope
  | next _ _ ended =>
    cases h with
    | iterate holds placed frame plain inScope =>
      obtain ⟨w', holds', leads⟩ := holds.turn placed plain inScope ended
      exact .iterate holds' (placed.leads leads) (frame.leads holds placed leads) plain inScope

end Good

/-! ## Sessions -/

section Sessions

variable {ordered : Prop} {clock : Nat → Number} {fuel : Nat} {σ σ' : State} {w : Beside σ}

theorem Beside.Holds.globals {held : List Value} (h : w.Holds ordered held) :
    w.Placed Arena.globals [] where
  active := h.paired.valid.globals_active
  lays := by
    rw [h.paired.arena.globals]
    exact .globals

theorem Beside.Holds.topLevel {held : List Value} (h : w.Holds ordered held) {s : Stmt}
    (hs : s.Scoped ordered []) {v : Value}
    (hrun : topLevel (.recycling clock) fuel held s σ = .done v σ') :
    ∃ w' : Beside σ', w'.Holds ordered [v] := by
  have hagree := h.paired.topLevel clock fuel [] s
  have hyields := (runs_topLevel clock fuel h.layered hs [] []).yields
  rw [hrun] at hagree
  rw [← h.paired.arena.globals] at hyields
  obtain ⟨w', hw', -⟩ := Beside.of_done hagree hyields
  exact ⟨w', hw'.mono (List.cons_subset_cons _ (List.nil_subset _))⟩

theorem Beside.Holds.topLevelFrom {last last' : Value} (h : w.Holds ordered [last])
    {ss : List Stmt} (hss : ∀ s ∈ ss, s.Scoped ordered [])
    (hrun : topLevelFrom (.recycling clock) fuel last ss σ = some ⟨last', none, σ'⟩) :
    ∃ w' : Beside σ', w'.Holds ordered [last'] := by
  induction ss generalizing σ last with
  | nil =>
    cases hrun
    exact ⟨w, h⟩
  | cons s ss ih =>
    obtain ⟨hs, hss⟩ := List.forall_mem_cons.mp hss
    simp only [Scriptlet.topLevelFrom] at hrun
    cases hrun' : Scriptlet.topLevel (.recycling clock) fuel [last] s σ with
    | done v σ₁ =>
      simp only [hrun'] at hrun
      obtain ⟨w₁, h₁⟩ := h.topLevel hs hrun'
      exact ih h₁ hss hrun
    | failed e σ₁ =>
      simp only [hrun'] at hrun
      cases hrun
    | outOfFuel =>
      simp only [hrun'] at hrun
      cases hrun

theorem Beside.Holds.run (h : w.Holds ordered []) {source : String}
    (ho : ordered → ∀ ss, tree source = .ok ss → Stmt.AllOrdered ss) {r : Report}
    (hrun : run (.recycling clock) fuel source σ = some (r, σ')) :
    ∃ w' : Beside σ', w'.Holds ordered [] := by
  unfold Scriptlet.run interpretChecked at hrun
  cases hprogram : program source with
  | error es =>
    rw [hprogram] at hrun
    cases hrun
    exact ⟨w, h⟩
  | ok ss =>
    rw [hprogram] at hrun
    obtain ⟨-, hscoped, -⟩ := scoped_of_program ordered hprogram ho
    have hreports := h.paired.interpret clock fuel ss
    obtain ⟨hlayered, -⟩ := h.layered.interpret clock fuel hscoped
    simp only [hrun] at hreports
    generalize interpret _ _ ss w.kept = o at hreports hlayered
    cases hreports with
    | @reported _ _ τ' ψ hp =>
      obtain ⟨labels', hτ'⟩ := hlayered r τ' rfl
      exact ⟨⟨ψ, labels', τ'⟩, hp, hτ'⟩

/-- The units of a session are ordered programs, as far as they are programs at all. -/
def AllOrdered (sources : List String) : Prop :=
  ∀ source ∈ sources, ∀ ss, tree source = .ok ss → Stmt.AllOrdered ss

theorem Beside.Holds.runAll (h : w.Holds ordered []) {sources : List String}
    (ho : ordered → AllOrdered sources) {reports : List Report}
    (hrun : runAll (Scriptlet.run (.recycling clock) fuel) sources σ = some (reports, σ')) :
    ∃ w' : Beside σ', w'.Holds ordered [] := by
  induction sources generalizing σ reports with
  | nil =>
    cases hrun
    exact ⟨w, h⟩
  | cons source sources ih =>
    simp only [Scriptlet.runAll] at hrun
    cases hsource : Scriptlet.run (.recycling clock) fuel source σ with
    | none =>
      simp only [hsource] at hrun
      cases hrun
    | some p =>
      obtain ⟨r, σ₁⟩ := p
      simp only [hsource] at hrun
      obtain ⟨⟨rs, σ₂⟩, hmore, heq⟩ := Option.map_eq_some_iff.mp hrun
      cases heq
      obtain ⟨w₁, h₁⟩ := h.run (fun hord => ho hord source List.mem_cons_self) hsource
      exact ih h₁ (fun hord u hu => ho hord u (List.mem_cons_of_mem source hu)) hmore

/-- **A statement that is reached at top level** is scoped, and runs beside a session that keeps all
frames. -/
theorem Begins.holds {sources : List String} {last : Value} {s : Stmt}
    (h : Begins (.recycling clock) fuel sources last s σ) (ho : ordered → AllOrdered sources) :
    s.Scoped ordered [] ∧ ∃ w : Beside σ, w.Holds ordered [last] := by
  cases h with
  | @reached earlier later source _ σ₁ _ _ _ _ _ units ran text ended =>
    subst units
    obtain ⟨-, hscoped, -⟩ := scoped_of_program ordered text fun hord =>
      ho hord source (List.mem_append_right _ List.mem_cons_self)
    rw [Stmt.allScoped_nil, List.forall_mem_append, List.forall_mem_cons] at hscoped
    let start : Beside .start := ⟨id, fun _ => [], .start⟩
    have hstart : start.Holds ordered [] := ⟨Paired.start, layered_start ordered⟩
    obtain ⟨w₁, h₁⟩ := hstart.runAll
      (fun hord u hu => ho hord u (List.mem_append_left _ hu)) ran
    have hpaired := h₁.paired.outside (fun ρ => { ρ with output := "" }) (fun _ => rfl)
      (fun _ => rfl) fun _ _ => rfl
    let w₂ : Beside { σ₁ with output := "" } := ⟨w₁.slots, w₁.labels, { w₁.kept with output := "" }⟩
    have h₂ : w₂.Holds ordered [.null] := ⟨hpaired.hold_plain rfl, h₁.layered⟩
    exact ⟨hscoped.2.1, h₂.topLevelFrom hscoped.1 ended⟩

theorem Begins.good {sources : List String} {last : Value} {s : Stmt}
    (h : Begins (.recycling clock) fuel sources last s σ) (ho : ordered → AllOrdered sources) :
    Good ordered clock fuel sources ⟨fuel, .topLevel last s, σ⟩ := by
  obtain ⟨hscoped, w, hw⟩ := h.holds ho
  have hexecute : Good ordered clock fuel sources ⟨fuel, .execute globals [last] s, σ⟩ :=
    .execute hw hw.globals nofun hscoped
  cases s with
  | expression line e => exact .evaluate hw hw.globals hscoped nofun
  | _ => exact hexecute

/-- **Every moment of a session is good.** -/
theorem Visited.good {sources : List String} {m : Moment}
    (h : Visited (.recycling clock) fuel sources m) (ho : ordered → AllOrdered sources) :
    Good ordered clock fuel sources m := by
  induction h with
  | begins hbegins => exact hbegins.good ho
  | starts hvisited hstarts ih => exact ih.starts hvisited hstarts

/-- Whether or not its units are ordered. -/
theorem good_of_visited {sources : List String} {m : Moment}
    (h : Visited (.recycling clock) fuel sources m) : Good False clock fuel sources m :=
  h.good nofun

end Sessions

/-! ## Nothing is given back at top level -/

/-- With fuel `n`, statements that hold no `return` outside functions give nothing back. -/
structure Stays (host : Host) (n : Nat) : Prop where
  execute {env : Slot} {held : List Value} {s : Stmt} {σ σ' : State} {v : Value}
    (hs : s.NeverReturns) : execute host n env held s σ ≠ .done (.giveBack v) σ'
  executeAll {env : Slot} {held : List Value} {ss : List Stmt} {σ σ' : State} {v : Value}
    (hss : Stmt.AllNeverReturn ss) : executeAll host n env held ss σ ≠ .done (.giveBack v) σ'
  iterate {env : Slot} {held : List Value} {line : Nat} {name : String} {body : Stmt}
    {i stop : Int} {σ σ' : State} {v : Value} (hbody : body.NeverReturns) :
    iterate host n env held line name body i stop σ ≠ .done (.giveBack v) σ'

namespace Stays

variable {host : Host} {n : Nat} (ih : Stays host n) {env : Slot} {held : List Value}
  {σ σ' : State} {v : Value}
include ih

theorem execute_succ {s : Stmt} (hs : s.NeverReturns) :
    Scriptlet.execute host (n + 1) env held s σ ≠ .done (.giveBack v) σ' := by
  intro h
  cases s with
  | block line body =>
    simp only [Scriptlet.execute] at h
    obtain ⟨_, _, _, -, h⟩ := Eval.inFrame_eq_done h
    exact ih.executeAll hs h
  | expression line e =>
    simp only [Scriptlet.execute, Eval.bind_eq_done] at h
    obtain ⟨_, _, -, h⟩ := h
    cases h
  | function line name params body =>
    simp only [Scriptlet.execute, Eval.bind_eq_done] at h
    obtain ⟨_, _, -, h⟩ := h
    cases h
  | ifThen line condition yes =>
    simp only [Scriptlet.execute, Eval.bind_eq_done] at h
    obtain ⟨c, _, -, h⟩ := h
    split_ifs at h
    · exact ih.execute (s := yes) hs h
    · cases h
  | ifElse line condition yes no =>
    simp only [Scriptlet.execute, Eval.bind_eq_done] at h
    obtain ⟨c, _, -, h⟩ := h
    split_ifs at h
    · exact ih.execute hs.1 h
    · exact ih.execute hs.2 h
  | giveBack => exact hs
  | declare line name e =>
    cases e with
    | none =>
      simp only [Scriptlet.execute, Eval.bind_eq_done] at h
      obtain ⟨_, _, -, h⟩ := h
      cases h
    | some e =>
      simp only [Scriptlet.execute, Eval.bind_eq_done] at h
      obtain ⟨_, _, -, _, _, -, h⟩ := h
      cases h
  | whileLoop line condition body =>
    simp only [Scriptlet.execute, Eval.bind_eq_done] at h
    obtain ⟨c, _, -, h⟩ := h
    split_ifs at h
    · obtain ⟨flow, _, hflow, h⟩ := Eval.bind_eq_done.mp h
      cases flow with
      | next => exact ih.execute hs h
      | giveBack u => exact ih.execute (s := body) hs hflow
    · cases h
  | forLoop line name iterable body =>
    simp only [Scriptlet.execute, Eval.bind_eq_done] at h
    obtain ⟨u, _, -, h⟩ := h
    have hbody : body.NeverReturns := hs
    cases u with
    | range => exact ih.iterate hbody h
    | _ => cases h

theorem executeAll_succ {ss : List Stmt} (hss : Stmt.AllNeverReturn ss) :
    Scriptlet.executeAll host (n + 1) env held ss σ ≠ .done (.giveBack v) σ' := by
  intro h
  cases ss with
  | nil =>
    simp only [Scriptlet.executeAll] at h
    cases h
  | cons s ss =>
    simp only [Scriptlet.executeAll, Eval.bind_eq_done] at h
    obtain ⟨flow, _, hflow, h⟩ := h
    cases flow with
    | next => exact ih.executeAll hss.2 h
    | giveBack u => exact ih.execute hss.1 hflow

theorem iterate_succ {line : Nat} {name : String} {body : Stmt} {i stop : Int}
    (hbody : body.NeverReturns) :
    Scriptlet.iterate host (n + 1) env held line name body i stop σ ≠ .done (.giveBack v) σ' := by
  intro h
  simp only [Scriptlet.iterate] at h
  split_ifs at h
  · cases hindex : Number.ofInt? i with
    | none =>
      rw [hindex] at h
      cases h
    | some x =>
      simp only [hindex, Eval.bind_eq_done] at h
      obtain ⟨flow, _, hflow, h⟩ := h
      cases flow with
      | next => exact ih.iterate hbody h
      | giveBack u =>
        obtain ⟨_, _, _, -, hturn⟩ := Eval.inFrame_eq_done hflow
        obtain ⟨_, _, -, hturn⟩ := Eval.bind_eq_done.mp hturn
        exact ih.execute hbody hturn
  · cases h

end Stays

/-- **Statements outside functions give nothing back.** -/
theorem stays (host : Host) (n : Nat) : Stays host n := by
  induction n with
  | zero =>
    constructor <;> intros <;> intro h <;> simp only [execute, executeAll, iterate] at h <;> cases h
  | succ n ih => exact ⟨ih.execute_succ, ih.executeAll_succ, ih.iterate_succ⟩

theorem Stmt.allNeverReturn_iff {ss : List Stmt} :
    Stmt.AllNeverReturn ss ↔ ∀ s ∈ ss, s.NeverReturns := by
  induction ss with
  | nil => simp [Stmt.AllNeverReturn]
  | cons s ss ih => rw [List.forall_mem_cons, ← ih, Stmt.AllNeverReturn]

theorem Begins.neverReturns {host : Host} {fuel : Nat} {sources : List String} {last : Value}
    {s : Stmt} {σ : State} (h : Begins host fuel sources last s σ) : s.NeverReturns := by
  cases h with
  | reached _ _ text _ =>
    obtain ⟨-, -, hreturns⟩ := scoped_of_program False text nofun
    exact Stmt.allNeverReturn_iff.mp hreturns s (List.mem_append_right _ List.mem_cons_self)

/-! ## What scope analysis ensures -/

section Ensures

variable {ordered : Prop} {clock : Nat → Number} {fuel n : Nat} {sources : List String} {env : Slot}
  {held : List Value} {line d : Nat} {x : String} {σ σ' : State}

theorem Good.read
    (h : Good ordered clock fuel sources ⟨n, .evaluate env held (.var line x (.enclosing d)), σ⟩) :
    ∃ v, readVariable env line x (.enclosing d) σ = .done v σ := by
  cases h with
  | @evaluate _ _ _ _ _ Γ _ w holds placed inScope _ =>
    obtain ⟨-, hfind, -⟩ := inScope
    obtain ⟨t, ht, hbound⟩ := placed.ancestor?_find holds hfind.symm
    obtain ⟨v, hv⟩ := Option.isSome_iff_exists.mp hbound
    refine ⟨v, ?_⟩
    rw [readVariable_eq, Arena.valueAt?, Arena.getAt?, ht, Option.bind_some, hv]

/-- A variable that was found in a scope can be assigned, unless it is being initialised. -/
theorem Good.write {rhs : Expr} {v : Value} {err : EvalError} {σ'' : State}
    (h : Good ordered clock fuel sources
      ⟨n + 1, .evaluate env held (.assign line x (.enclosing d) rhs), σ⟩)
    (hrhs : Scriptlet.evaluate (.recycling clock) n env held rhs σ = .done v σ')
    (hfailed : writeVariable env line x (.enclosing d) v σ' = .failed err σ'') :
    Initializing (.recycling clock) fuel sources env x
      ⟨n + 1, .evaluate env held (.assign line x (.enclosing d) rhs), σ⟩ := by
  cases h with
  | @evaluate _ _ _ _ _ Γ pending w holds placed inScope hinit =>
    obtain ⟨hscoped, htarget, -⟩ := inScope
    by_cases hpending : pending = some x
    · exact hinit x hpending
    -- otherwise the variable is there, also after the right side was evaluated
    rw [Layers.target, if_neg hpending] at htarget
    obtain ⟨w', holds', leads, -⟩ := holds.evaluate placed hscoped hrhs
    obtain ⟨t, ht, hbound⟩ := (placed.leads leads).ancestor?_find holds' htarget.symm
    have hslot : σ'.arena.slotAt? env x (.enclosing d) = some t := by
      rw [Arena.slotAt?, ht, Option.filter, if_pos hbound]
    rw [writeVariable_eq, hslot] at hfailed
    cases hfailed

theorem Good.define {m : Moment} (h : Good ordered clock fuel sources m) {s : Slot} {a : Arena}
    (hdefines : m.Defines (.recycling clock) s x a) (hs : s ≠ globals) : a.get? s x = none := by
  cases hdefines with
  | null =>
    cases h with
    | execute holds placed frame inScope =>
      exact frame.get?_eq_none holds placed inScope hs
  | declare ended =>
    cases h with
    | execute holds placed frame inScope =>
      obtain ⟨w', holds', leads, -⟩ := holds.evaluate placed inScope.2 ended
      exact (frame.leads holds placed leads).get?_eq_none holds' (placed.leads leads) inScope.1 hs
  | function =>
    cases h with
    | execute holds placed frame inScope =>
      have hget := frame.get?_eq_none holds placed inScope.1 hs
      simpa [Arena.get?] using hget
  | parameter enters opened split bound =>
    obtain ⟨hnodup, Γ, w, holds, placed, frame, -⟩ :=
      h.parameters enters opened (split ▸ List.prefix_append _ _) bound
    refine frame.get?_eq_none holds placed ?_ hs
    rintro _ ⟨⟩
    rw [split] at hnodup ⊢
    refine ⟨fun hx => ?_, by simp⟩
    exact (List.nodup_append.mp hnodup).2.2 x (List.mem_reverse.mp hx) x List.mem_cons_self rfl
  | index below opened =>
    cases h with
    | iterate holds placed _ _ _ =>
      obtain ⟨w', holds', placed', frame', -⟩ :=
        holds.push (.inl placed.active) placed.lays [x] opened
      refine frame'.get?_eq_none holds' placed' ?_ hs
      rintro _ ⟨⟩
      exact ⟨List.not_mem_nil, List.mem_singleton_self x⟩

end Ensures

/-- **Scope analysis is sound.** In every session, at every moment of it: a variable that was found
in a scope can be read; if it cannot be assigned then the assignment lies inside the initializer of
the variable it names; no statement at top level gives a value back; and a definition in a frame
other than the globals binds a name that this frame does not bind yet. The moments are all there
are: every undefined variable that a unit reports is a reference that failed at one of them. -/
theorem resolution_sound (clock : Nat → Number) (fuel : Nat) (sources : List String) :
    (∀ n env held line x d σ,
      Visited (.recycling clock) fuel sources
        ⟨n, .evaluate env held (.var line x (.enclosing d)), σ⟩ →
      ∃ v, readVariable env line x (.enclosing d) σ = .done v σ) ∧
    (∀ n env held line x d rhs σ v σ' err σ'',
      Visited (.recycling clock) fuel sources
        ⟨n + 1, .evaluate env held (.assign line x (.enclosing d) rhs), σ⟩ →
      evaluate (.recycling clock) n env held rhs σ = .done v σ' →
      writeVariable env line x (.enclosing d) v σ' = .failed err σ'' →
      Initializing (.recycling clock) fuel sources env x
        ⟨n + 1, .evaluate env held (.assign line x (.enclosing d) rhs), σ⟩) ∧
    (∀ last s σ v σ', Begins (.recycling clock) fuel sources last s σ →
      execute (.recycling clock) fuel globals [last] s σ ≠ .done (.giveBack v) σ') ∧
    (∀ m s x a, Visited (.recycling clock) fuel sources m → m.Defines (.recycling clock) s x a →
      s ≠ globals → a.get? s x = none) ∧
    ∀ reports σ r err x, runAll (run (.recycling clock) fuel) sources .start = some (reports, σ) →
      r ∈ reports → .eval err ∈ r.errors → err.fault = .undefinedVariable x →
      ∃ m, Visited (.recycling clock) fuel sources m ∧ m.Misses (.recycling clock) err := by
  refine ⟨?_, ?_, ?_, ?_, ?_⟩
  · intro n env held line x d σ hvisited
    exact (good_of_visited hvisited).read
  · intro n env held line x d rhs σ v σ' err σ'' hvisited hrhs hfailed
    exact (good_of_visited hvisited).write hrhs hfailed
  · intro last s σ v σ' hbegins
    exact (stays _ fuel).execute hbegins.neverReturns
  · intro m s x a hvisited hdefines hs
    exact (good_of_visited hvisited).define hdefines hs
  · intro reports σ r err x hrun hr herr hx
    exact misses_of_report hrun hr herr hx

/-- A variable of a block is read. -/
theorem resolution_sound_block :
    ∃ env σ v, Visited (.recycling fun _ => ⟨0⟩) 9 ["\x7b var x = true; x; \x7d"]
        ⟨5, .evaluate env [.null] (.var 1 "x" (.enclosing 0)), σ⟩ ∧
      readVariable env 1 "x" (.enclosing 0) σ = .done v σ := by
  have hscan : scan "\x7b var x = true; x; \x7d" =
      .ok [⟨.leftBrace, "\x7b", none, 1⟩, ⟨.kwVar, "var", none, 1⟩, ⟨.identifier, "x", none, 1⟩,
        ⟨.equal, "=", none, 1⟩, ⟨.kwTrue, "true", some (.bool true), 1⟩,
        ⟨.semicolon, ";", none, 1⟩, ⟨.identifier, "x", none, 1⟩, ⟨.semicolon, ";", none, 1⟩,
        ⟨.rightBrace, "\x7d", none, 1⟩, .endOfInput 1] := by
    simp [scan, scanFrom, linesPassed, lexeme?, runLength, withEqual, literal?, TokenKind.ofWord,
      TokenKind.keywords, TokenKind.isSkipped, isBlank, List.lookup_cons]
  have hdeclare := Stmt.Written.declare (t := ⟨.kwVar, "var", none, 1⟩)
    (n := ⟨.identifier, "x", none, 1⟩) (m := ⟨.equal, "=", none, 1⟩)
    (q := ⟨.semicolon, ";", none, 1⟩) rfl rfl rfl
    (.literal (t := ⟨.kwTrue, "true", some (.bool true), 1⟩) rfl) rfl
  have hread := Stmt.Written.expression (q := ⟨.semicolon, ";", none, 1⟩)
    (.var (t := ⟨.identifier, "x", none, 1⟩) rfl) rfl
  have hwritten := Stmt.Written.block (l := ⟨.leftBrace, "\x7b", none, 1⟩)
    (r := ⟨.rightBrace, "\x7d", none, 1⟩) rfl (.cons hdeclare (.cons hread .nil)) rfl
  have htree := tree_eq_ok.mpr ⟨_, hscan, Grammar.parse_eq_ok.mpr ⟨_, [.endOfInput 1], rfl,
    Grammar.chained_sentence_iff.mpr ⟨.cons hwritten .nil, by
      simp [Stmt.AllWellFormed, Stmt.WellFormed, Expr.WellFormed], by decide⟩, by
        simp [Token.endOfInput]⟩⟩
  have htext : program "\x7b var x = true; x; \x7d" =
      .ok ([] ++ .block 1 [.declare 1 "x" (some (.literal 1 (.bool true))),
        .expression 1 (.var 1 "x" (.enclosing 0))] :: []) := by
    unfold program
    rw [htree]
    rfl
  have hunits : ["\x7b var x = true; x; \x7d"] = [] ++ "\x7b var x = true; x; \x7d" :: [] := rfl
  let host : Host := .recycling fun _ => ⟨0⟩
  let opened := State.start.push host globals [.null]
  have hdeclared : execute host 7 opened.1 [.null]
      (.declare 1 "x" (some (.literal 1 (.bool true)))) opened.2 =
        .done .next (opened.2.define opened.1 "x" (.bool true)) := by
    simp only [execute, evaluate]
    rfl
  have hbegins : Visited host 9 _ _ := .begins (.reached hunits rfl htext rfl)
  have hvisited := (((hbegins.starts (.block rfl)).starts (.tail hdeclared)).starts .head).starts
    (.first rfl)
  obtain ⟨v, hv⟩ := (resolution_sound _ 9 _).1 _ _ _ _ _ _ _ hvisited
  exact ⟨_, _, v, hvisited, hv⟩

end Scriptlet
