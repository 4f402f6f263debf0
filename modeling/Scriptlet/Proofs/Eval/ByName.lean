import Scriptlet.Proofs.Eval.Following
import Scriptlet.Proofs.Scope.Resolution
import Scriptlet.Proofs.Tree.RoundTrip

/-!
# Distances and search by name

Scope analysis gives variables distances; without it they are searched by name, from the innermost
frame outward. In an ordered program, where names are referred to after their declarations only,
both find the same variables.

* `scoped_of_program`: the program of a source text is scoped.
* `runs_topLevel`, `Arena.Layered.topLevelFrom`: statements at top level, one and all of them.
* `runAll_byName`: **sessions of ordered programs report the same with and without scope
  analysis**.
-/

namespace Scriptlet

open Arena (globals Lays Layered Grows)

/-! ## Programs -/

/-- **The program of a source text is scoped**, and without its bindings it is the tree of the
text. -/
theorem scoped_of_program (ordered : Prop) {source : String} {ss' : List Stmt}
    (h : program source = .ok ss')
    (ho : ordered → ∀ ss, tree source = .ok ss → Stmt.AllOrdered ss) :
    tree source = .ok (Stmt.allUnbound ss') ∧ Stmt.AllScoped ordered [] ss' ∧
      Stmt.AllNeverReturn ss' := by
  unfold program at h
  split at h
  · cases h
  rename_i ss htree
  split at h
  · cases h
  rename_i hresolve
  cases h
  obtain ⟨ts, -, hparse⟩ := tree_eq_ok.mp htree
  obtain ⟨used, rest, -, hchain, -⟩ := Grammar.parse_eq_ok.mp hparse
  obtain ⟨hwritten, hwell, -⟩ := Grammar.chained_sentence_iff.mp hchain
  obtain ⟨hscoped, hunbound, hreturns⟩ :=
    allScoped_of_resolve hwell (fun hord => ho hord ss htree) hresolve
  refine ⟨?_, hscoped, hreturns⟩
  rw [hunbound, hwritten.allUnbound]
  exact htree

/-! ## Top level -/

section TopLevel

variable {ordered : Prop} {labels : Slot → List String} {τ : State} (clock : Nat → Number)
  (fuel : Nat)

theorem runs_topLevel (h : Layered ordered labels τ.arena) {s : Stmt} (hs : s.Scoped ordered [])
    (held held' : List Value) :
    Runs ordered labels τ globals s.declared (SoundIn ordered)
      (topLevel (.keeping clock) fuel held s τ)
      (topLevel (.keeping clock) fuel held' s.unbound τ.unbound) := by
  have hexecute : Runs ordered labels τ globals s.declared (SoundIn ordered)
      ((do
        let _ ← execute (.keeping clock) fuel globals held s
        return .null : Eval Value) τ)
      ((do
        let _ ← execute (.keeping clock) fuel globals held' s.unbound
        return .null : Eval Value) τ.unbound) := by
    refine ((followed ordered clock fuel).execute h .globals hs held held').bind
      fun labels₁ τ₁ _ after _ => ?_
    exact runs_value (a := Value.null) after.layered (Value.sound_of_closure? rfl)
  cases s with
  | expression line e => exact (followed ordered clock fuel).evaluate h .globals hs held held'
  | giveBack line e => cases e <;> exact hexecute
  | declare line name e => cases e <;> exact hexecute
  | _ => exact hexecute

/-- The ending without bindings. -/
def Ending.unbound (e : Ending) : Ending := ⟨e.last.unbound, e.error?, e.state.unbound⟩

/-- **Statements at top level** leave layered frames, and in an ordered program they end the same
way without bindings. -/
theorem Arena.Layered.topLevelFrom (h : Layered ordered labels τ.arena) {ss : List Stmt}
    (hss : Stmt.AllScoped ordered [] ss) (last : Value) :
    (∀ e, topLevelFrom (.keeping clock) fuel last ss τ = some e →
        ∃ labels', Layered ordered labels' e.state.arena) ∧
      (ordered → topLevelFrom (.keeping clock) fuel last.unbound (Stmt.allUnbound ss) τ.unbound =
        (topLevelFrom (.keeping clock) fuel last ss τ).map Ending.unbound) := by
  induction ss generalizing labels τ last with
  | nil =>
    refine ⟨?_, fun _ => rfl⟩
    rintro e ⟨⟩
    exact ⟨labels, h⟩
  | cons s ss ih =>
    obtain ⟨hyields, hname⟩ := runs_topLevel clock fuel h hss.1 [last] [last.unbound]
    simp only [Scriptlet.topLevelFrom, Stmt.allUnbound]
    generalize topLevel _ _ _ s τ = o, topLevel _ _ _ s.unbound _ = o' at hyields hname ⊢
    cases hyields with
    | done after _ =>
      obtain ⟨hlayered, hrest⟩ := ih after.layered hss.2 _
      refine ⟨hlayered, fun ho => ?_⟩
      rw [hname ho]
      exact hrest ho
    | @failed labels' _ _ after =>
      refine ⟨fun e he => ?_, fun ho => ?_⟩
      · obtain rfl := Option.some.inj he
        exact ⟨labels', after.layered⟩
      · rw [hname ho]
        rfl
    | outOfFuel =>
      refine ⟨fun e he => ?_, fun ho => ?_⟩
      · simp at he
      · rw [hname ho]
        rfl

/-- **A program** leaves layered frames, and if it is ordered then it has the same report without
bindings. -/
theorem Arena.Layered.interpret (h : Layered ordered labels τ.arena) {ss : List Stmt}
    (hss : Stmt.AllScoped ordered [] ss) :
    (∀ r τ', interpret (.keeping clock) fuel ss τ = some (r, τ') →
        ∃ labels', Layered ordered labels' τ'.arena) ∧
      (ordered → interpret (.keeping clock) fuel (Stmt.allUnbound ss) τ.unbound =
        (interpret (.keeping clock) fuel ss τ).map fun p => (p.1, p.2.unbound)) := by
  obtain ⟨hlayered, hname⟩ :=
    Arena.Layered.topLevelFrom (τ := { τ with output := "" }) clock fuel h hss .null
  constructor
  · intro r τ' hrun
    obtain ⟨e, he, heq⟩ := Option.map_eq_some_iff.mp hrun
    cases heq
    exact hlayered e he
  · intro ho
    unfold Scriptlet.interpret
    rw [Option.map_map]
    refine (congrArg (Option.map _) (hname ho)).trans ?_
    rw [Option.map_map]
    congr 1
    funext e
    simp only [Function.comp_apply, Ending.unbound, Value.text_unbound]
    rfl

end TopLevel

/-! ## Sessions -/

theorem layered_start (ordered : Prop) :
    Layered ordered (fun _ => []) State.start.arena := by
  have hempty : Layered ordered (fun _ => []) Arena.empty := by
    have hnone : ∀ t x, Arena.empty.get? t x = none := by
      rintro (_ | t) x <;> rfl
    refine ⟨Nat.zero_lt_one, rfl, fun t x _ hx => ?_, fun {t x v} hv => ?_⟩
    · rw [hnone] at hx
      cases hx
    · rw [hnone] at hv
      cases hv
  have hdefine : ∀ (fs : List Builtin) (a : Arena), Layered ordered (fun _ => []) a →
      Layered ordered (fun _ => [])
        (fs.foldl (fun a f => a.define globals f.name (.builtin f)) a) := by
    intro fs
    induction fs with
    | nil => exact fun _ ha => ha
    | cons f fs ih =>
      exact fun a ha => ih _ (ha.define (absurd rfl) (Value.sound_of_closure? rfl))
  exact hdefine Builtin.all .empty hempty

theorem State.start_unbound : State.start.unbound = .start := by
  have hempty : Arena.empty.unbound = .empty := by
    simp [Arena.unbound, Arena.empty, Frame.unbound, Bindings.unbound]
  have harena : Arena.withBuiltins.unbound = .withBuiltins := by
    simp only [Arena.withBuiltins, Builtin.all, List.foldl, Arena.define_unbound, hempty,
      Value.unbound]
  exact congrArg (State.mk · 0 "" 0 0) harena

/-- The states of a session with scope analysis and of one without: both run beside a session that
keeps all frames. -/
def ByName (σ σ' : State) : Prop :=
  ∃ φ φ' τ labels, Paired φ [] σ τ ∧ Paired φ' [] σ' τ.unbound ∧ Layered True labels τ.arena

theorem ByName.start : ByName .start .start := by
  refine ⟨id, id, .start, fun _ => [], Paired.start, ?_, layered_start True⟩
  rw [State.start_unbound]
  exact Paired.start

/-- Two runs of a unit with the same report, from which both sessions go on. -/
inductive ReportsByName : Option (Report × State) → Option (Report × State) → Prop
  | reported {r : Report} {σ σ' : State} (states : ByName σ σ') :
    ReportsByName (some (r, σ)) (some (r, σ'))
  | outOfFuel : ReportsByName none none

theorem ByName.interpret {σ σ' : State} (h : ByName σ σ') (clock : Nat → Number) (fuel : Nat)
    {ss : List Stmt} (hss : Stmt.AllScoped True [] ss) :
    ReportsByName (interpret (.recycling clock) fuel ss σ)
      (interpret (.recycling clock) fuel (Stmt.allUnbound ss) σ') := by
  obtain ⟨φ, φ', τ, labels, hσ, hσ', hτ⟩ := h
  have hbound := hσ.interpret clock fuel ss
  have hunbound := hσ'.interpret clock fuel (Stmt.allUnbound ss)
  obtain ⟨hlayered, hname⟩ := hτ.interpret clock fuel hss
  rw [hname trivial] at hunbound
  generalize Scriptlet.interpret _ _ ss σ = o, Scriptlet.interpret _ _ _ σ' = o',
    Scriptlet.interpret _ _ ss τ = k at hbound hunbound hlayered ⊢
  cases hbound with
  | @reported r σ₁ τ₁ ψ hp =>
    cases hunbound with
    | reported ψ' hp' =>
      obtain ⟨labels₁, hτ₁⟩ := hlayered r τ₁ rfl
      exact .reported ⟨ψ, ψ', τ₁, labels₁, hp, hp', hτ₁⟩
  | outOfFuel =>
    cases hunbound
    exact .outOfFuel

theorem ByName.run {σ σ' : State} (h : ByName σ σ') (clock : Nat → Number) (fuel : Nat)
    {source : String} {ss ss' : List Stmt} (htree : tree source = .ok ss)
    (hresolve : resolve ss = (ss', none)) (hordered : Stmt.AllOrdered ss) :
    ReportsByName (run (.recycling clock) fuel source σ)
      (runByName (.recycling clock) fuel source σ') := by
  have hprogram : program source = .ok ss' := by simp only [program, htree, hresolve]
  obtain ⟨htree', hscoped, -⟩ := scoped_of_program True hprogram fun _ ss₁ h₁ => by
    obtain rfl := Except.ok.inj (htree.symm.trans h₁)
    exact hordered
  unfold Scriptlet.run runByName
  rw [hprogram, htree']
  exact h.interpret clock fuel hscoped

/-- **Distances agree with the search by name.** In a session of source units that pass scope
analysis and refer to the names of each scope only after their declarations, every unit has the
result, errors and output that it has without scope analysis; if one session ends then so does the
other. -/
theorem runAll_byName (clock : Nat → Number) (fuel : Nat) (sources : List String)
    (h : ∀ source ∈ sources, ∃ ss ss', tree source = .ok ss ∧ resolve ss = (ss', none) ∧
      Stmt.AllOrdered ss) :
    (runAll (run (.recycling clock) fuel) sources .start).map Prod.fst =
      (runAll (runByName (.recycling clock) fuel) sources .start).map Prod.fst := by
  have hrun : ∀ {σ σ'}, ByName σ σ' →
      (runAll (run (.recycling clock) fuel) sources σ).map Prod.fst =
        (runAll (runByName (.recycling clock) fuel) sources σ').map Prod.fst := by
    induction sources with
    | nil => exact fun _ => rfl
    | cons source sources ih =>
      intro σ σ' hstates
      obtain ⟨⟨ss, ss', htree, hresolve, hordered⟩, hmore⟩ := List.forall_mem_cons.mp h
      have hsource := hstates.run clock fuel htree hresolve hordered
      simp only [runAll]
      generalize run _ _ source σ = o, runByName _ _ source σ' = o' at hsource ⊢
      cases hsource with
      | @reported r _ _ hnext =>
        simpa [Function.comp_def] using congrArg (Option.map (List.cons r)) (ih hmore hnext)
      | outOfFuel => rfl
  exact hrun ByName.start

/-- A function that is called after the declarations around it. -/
theorem runAll_byName_function :
    ∃ ss ss', tree "\x7b var x = true; fun f() return x; f(); \x7d" = .ok ss ∧
      resolve ss = (ss', none) ∧ Stmt.AllOrdered ss ∧
      (runAll (run (.recycling fun _ => ⟨0⟩) 99)
          ["\x7b var x = true; fun f() return x; f(); \x7d"] .start).map Prod.fst =
        (runAll (runByName (.recycling fun _ => ⟨0⟩) 99)
          ["\x7b var x = true; fun f() return x; f(); \x7d"] .start).map Prod.fst := by
  have hscan : scan "\x7b var x = true; fun f() return x; f(); \x7d" =
      .ok [⟨.leftBrace, "\x7b", none, 1⟩, ⟨.kwVar, "var", none, 1⟩, ⟨.identifier, "x", none, 1⟩,
        ⟨.equal, "=", none, 1⟩, ⟨.kwTrue, "true", some (.bool true), 1⟩, ⟨.semicolon, ";", none, 1⟩,
        ⟨.kwFun, "fun", none, 1⟩, ⟨.identifier, "f", none, 1⟩, ⟨.leftParen, "(", none, 1⟩,
        ⟨.rightParen, ")", none, 1⟩, ⟨.kwReturn, "return", none, 1⟩, ⟨.identifier, "x", none, 1⟩,
        ⟨.semicolon, ";", none, 1⟩, ⟨.identifier, "f", none, 1⟩, ⟨.leftParen, "(", none, 1⟩,
        ⟨.rightParen, ")", none, 1⟩, ⟨.semicolon, ";", none, 1⟩, ⟨.rightBrace, "\x7d", none, 1⟩,
        .endOfInput 1] := by
    simp [scan, scanFrom, linesPassed, lexeme?, runLength, withEqual, literal?, TokenKind.ofWord,
      TokenKind.keywords, TokenKind.isSkipped, isBlank, List.lookup_cons]
  have hdeclare := Stmt.Written.declare (t := ⟨.kwVar, "var", none, 1⟩)
    (n := ⟨.identifier, "x", none, 1⟩) (m := ⟨.equal, "=", none, 1⟩)
    (q := ⟨.semicolon, ";", none, 1⟩) rfl rfl rfl
    (.literal (t := ⟨.kwTrue, "true", some (.bool true), 1⟩) rfl) rfl
  have hfunction := Stmt.Written.shortFunction (f := ⟨.kwFun, "fun", none, 1⟩)
    (n := ⟨.identifier, "f", none, 1⟩) (l := ⟨.leftParen, "(", none, 1⟩)
    (r := ⟨.rightParen, ")", none, 1⟩) rfl rfl rfl .nil rfl
    (.giveBack (t := ⟨.kwReturn, "return", none, 1⟩) (q := ⟨.semicolon, ";", none, 1⟩) rfl
      (.var (t := ⟨.identifier, "x", none, 1⟩) rfl) rfl) ⟨rfl, rfl⟩
  have hcall := Expr.Written.call (l := ⟨.leftParen, "(", none, 1⟩)
    (r := ⟨.rightParen, ")", none, 1⟩) (.var (t := ⟨.identifier, "f", none, 1⟩) rfl) rfl .nil rfl
  have hwritten := Stmt.Written.block (l := ⟨.leftBrace, "\x7b", none, 1⟩)
    (r := ⟨.rightBrace, "\x7d", none, 1⟩) rfl (.cons hdeclare (.cons hfunction (.cons
      (.expression (q := ⟨.semicolon, ";", none, 1⟩) hcall rfl) .nil))) rfl
  have htree := tree_eq_ok.mpr ⟨_, hscan, Grammar.parse_eq_ok.mpr ⟨_, [.endOfInput 1], rfl,
    Grammar.chained_sentence_iff.mpr ⟨.cons hwritten .nil, by
      simp [Stmt.AllWellFormed, Stmt.WellFormed, Expr.WellFormed, Expr.AllWellFormed, Expr.level,
        maxParameters], by decide⟩, by simp [Token.endOfInput]⟩⟩
  have hordered : Stmt.AllOrdered [.block 1 [.declare 1 "x" (some (.literal 1 (.bool true))),
      .function 1 "f" [] [.giveBack 1 (some (.var 1 "x" .unresolved))],
      .expression 1 (.call 1 (.var 1 "f" .unresolved) [])]] := by
    simp [Stmt.AllOrdered, Stmt.Ordered, Stmt.Sequenced, Stmt.references, Stmt.allReferences,
      Expr.references, Expr.allReferences, Stmt.declared, Stmt.allDeclared]
  refine ⟨_, _, htree, rfl, hordered, runAll_byName _ _ _ ?_⟩
  exact List.forall_mem_singleton.mpr ⟨_, _, htree, rfl, hordered⟩

end Scriptlet
