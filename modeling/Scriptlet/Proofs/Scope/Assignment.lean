import Scriptlet.Proofs.Scope.Soundness

/-!
# Reading what was written

An assignment and a reference at the same place of a program have the same binding. A variable of a
scope is written and read in the same frame. A global is read from the globals, but the search for
where to write it goes outward from the environment of the assignment: a frame on the way may have
come to bind the name after the function around the assignment was declared.

* `Arena.Shadowed`: a frame on the way to the globals binds the name.
* `Arena.valueAt?_define`: **what was written is read**, if a global was written to the globals.
* `Good.find?_globals`: **in an ordered session no global is shadowed** where it is assigned.
* `reads_assigned`: what is read after an assignment, at every moment of every session.
-/

namespace Scriptlet

open Arena (globals)
open Walk

/-! ## One binding for writing and reading -/

/-- **The binding of an assignment is that of a reference** to the same name at the same place. -/
theorem binding_of_assign {line line' : Nat} {x : String} {old old' b b' : Binding}
    {rhs rhs' : Expr} {sc sc' sc'' : Scopes}
    (h : Gives (Expr.resolve (.assign line x old rhs)) sc (.assign line x b rhs') sc')
    (h' : Gives (Expr.resolve (.var line' x old')) sc' (.var line' x b') sc'') : b' = b := by
  simp only [Expr.resolve, gives_bind, gives_check, gives_bindingOf, gives_pure] at h h'
  obtain ⟨_, mid, -, _, _, ⟨rfl, rfl⟩, heq, rfl⟩ := h
  obtain ⟨_, mid', hread, _, _, ⟨rfl, -⟩, heq', -⟩ := h'
  -- a reference that is not refused leaves the scopes as they are
  have hmid : mid' = sc' := by
    unfold Scopes.read at hread
    split at hread
    · cases hread
    · exact (Except.ok.inj hread).symm
  cases heq
  cases heq'
  rw [hmid]

/-! ## Frames on the way outward -/

namespace Arena

variable {a : Arena} {env s t : Slot} {x y : String} {v : Value} {b : Binding}

/-- **A frame on the way to the globals binds the name.** -/
def Shadowed (a : Arena) (env : Slot) (x : String) : Prop :=
  ∃ d t, a.ancestor? env d = some t ∧ t ≠ globals ∧ (a.get? t x).isSome

theorem shadowed_define (h : (a.get? t x).isSome) (v : Value) :
    (a.define t x v).Shadowed env y ↔ a.Shadowed env y := by
  simp only [Shadowed, ancestor?_define, isSome_get?_define h]

/-- **What was written is read**, provided that a global was written to the globals. -/
theorem valueAt?_define (h : a.slotAt? env x b = some t) (hglobal : b = .toplevel → t = globals)
    (v : Value) : (a.define t x v).valueAt? env x b = some v := by
  have hbound := isSome_get?_of_slotAt? h
  have hself := get?_define_self (lt_size_of_get? hbound) x v
  cases b with
  | enclosing d =>
    obtain ⟨hd, -⟩ := Option.filter_eq_some_iff.mp h
    rw [valueAt?, getAt?, ancestor?_define, hd]
    exact hself
  | toplevel =>
    obtain rfl := hglobal rfl
    exact hself
  | unresolved =>
    have hfind : a.find? env x = some t := h
    rw [valueAt?, lookup?, find?_define hbound, hfind]
    exact hself

theorem ancestor?_of_find? {path : List Slot} (hpath : a.Outward env path)
    (hlive : (a.frame globals).live) (h0 : (a.frame globals).enclosing = none)
    (h : a.find? env x = some t) : ∃ d, a.ancestor? env d = some t := by
  rw [hpath.find? hlive h0] at h
  obtain ⟨d, hd⟩ := List.getElem?_of_mem (List.mem_of_find?_eq_some h)
  exact ⟨d, (hpath.ancestor? h0 d).trans hd⟩

/-- **The search by name reaches the globals exactly if the name is not shadowed.** -/
theorem find?_eq_globals_iff {path : List Slot} (hpath : a.Outward env path)
    (hlive : (a.frame globals).live) (h0 : (a.frame globals).enclosing = none)
    (h : a.find? env x = some t) : t = globals ↔ ¬ a.Shadowed env x := by
  constructor
  · rintro rfl ⟨d, u, hd, hne, hu⟩
    rw [hpath.find? hlive h0] at h
    rw [hpath.ancestor? h0] at hd
    obtain ⟨-, before, after, hsplit, hbefore⟩ := List.find?_eq_some_iff_append.mp h
    -- the globals come last and only once, so that all other frames come before them
    have hnodup := hpath.nodup
    have hlast := hpath.getLast?
    subst hsplit
    have hafter : after = [] := by
      by_contra hafter
      rw [List.getLast?_append_of_ne_nil _ (List.cons_ne_nil _ _),
        List.getLast?_cons_of_ne_nil hafter] at hlast
      have hmem := List.mem_of_getLast? hlast
      exact (List.nodup_cons.mp (List.nodup_append.mp hnodup).2.1).1 hmem
    have hmem : u ∈ before ++ globals :: after := List.mem_of_getElem? hd
    rw [hafter, List.mem_append, List.mem_singleton] at hmem
    rcases hmem with hmem | hmem
    · exact absurd hu (by simpa using hbefore u hmem)
    · exact hne hmem
  · intro hshadowed
    by_contra hne
    obtain ⟨d, hd⟩ := ancestor?_of_find? hpath hlive h0 h
    exact hshadowed ⟨d, t, hd, hne, isSome_get?_of_findFrom h⟩

end Arena

namespace World.Valid

variable {w : World} {s : Slot} {x : String}

theorem outward_push (hw : w.Valid) (h : w.Opens s) :
    ∃ path, (w.arena.push s w.held).2.Outward (w.arena.push s w.held).1
      ((w.arena.push s w.held).1 :: path) ∧ (w.arena.push s w.held).2.Outward s path := by
  have hvalid := hw.push h
  obtain ⟨hactive, hne, -⟩ := hw.closes_push h
  obtain ⟨path, hpath⟩ := hvalid.outward (hvalid.live_of_active hactive)
  have hself : (w.arena.push s w.held).2.frame (w.arena.push s w.held).1 = Arena.fresh s :=
    hw.makeRoom.frame_place_self (Arena.fresh s)
  generalize w.arena.push s w.held = opened at hne hpath hself ⊢
  obtain ⟨t, a⟩ := opened
  cases hpath with
  | arrived => exact absurd rfl hne
  | link live enclosing rest fresh =>
    rw [hself] at enclosing
    cases enclosing
    exact ⟨_, .link live (by rw [hself]; rfl) rest fresh, rest⟩

theorem find?_push (hw : w.Valid) (hs : (w.arena.frame s).active)
    (hx : (w.arena.get? s x).isSome) :
    (w.arena.push s w.held).2.find? (w.arena.push s w.held).1 x = some s := by
  have hvalid := hw.push (.inl hs)
  obtain ⟨path, hpath, hrest⟩ := hw.outward_push (.inl hs)
  have hempty : (w.arena.push s w.held).2.get? (w.arena.push s w.held).1 x = none :=
    congrArg (·.bindings.lookup x) (hw.makeRoom.frame_place_self (Arena.fresh s))
  have hbound : ((w.arena.push s w.held).2.get? s x).isSome := by
    rwa [Arena.get?, hw.frame_push_of_active s hs]
  rw [hpath.find? hvalid.globals_live hvalid.globals_outermost, List.find?_cons_of_neg (by
    rw [hempty]; exact Bool.false_ne_true)]
  cases hrest <;> exact List.find?_cons_of_pos hbound

end World.Valid

/-! ## At a moment of a session -/

theorem exists_define_of_assign {host : Host} {n : Nat} {env : Slot} {held : List Value}
    {line : Nat} {x : String} {b : Binding} {rhs : Expr} {σ σ' : State} {v : Value}
    (h : evaluate host (n + 1) env held (.assign line x b rhs) σ = .done v σ') :
    ∃ σ₁ t, evaluate host n env held rhs σ = .done v σ₁ ∧ σ₁.arena.slotAt? env x b = some t ∧
      σ' = σ₁.define t x v := by
  simp only [evaluate, Eval.bind_eq_done] at h
  obtain ⟨u, σ₁, hrhs, _, _, hwrite, hvalue⟩ := h
  cases hvalue
  rw [writeVariable_eq] at hwrite
  cases ht : σ₁.arena.slotAt? env x b with
  | none =>
    rw [ht] at hwrite
    cases hwrite
  | some t =>
    rw [ht] at hwrite
    cases hwrite
    exact ⟨σ₁, t, hrhs, ht, rfl⟩

section Moments

variable {ordered : Prop} {clock : Nat → Number} {fuel n : Nat} {sources : List String}
  {env : Slot} {held : List Value} {line : Nat} {x : String} {b : Binding} {rhs : Expr}
  {σ σ₁ : State} {v : Value} {t : Slot}

/-- After the right side was evaluated, the search for a name ends at the globals exactly if the
name is not shadowed. -/
theorem Good.eq_globals_iff
    (h : Good ordered clock fuel sources ⟨n + 1, .evaluate env held (.assign line x b rhs), σ⟩)
    (hrhs : Scriptlet.evaluate (.recycling clock) n env held rhs σ = .done v σ₁)
    (ht : σ₁.arena.find? env x = some t) : t = globals ↔ ¬ σ₁.arena.Shadowed env x := by
  cases h with
  | evaluate holds placed inScope _ =>
    obtain ⟨w, holds₁, leads, -⟩ := holds.evaluate placed inScope.1 hrhs
    have hvalid := holds₁.paired.valid
    obtain ⟨path, hpath⟩ := hvalid.outward (hvalid.live_of_active (placed.leads leads).active)
    exact Arena.find?_eq_globals_iff hpath hvalid.globals_live hvalid.globals_outermost ht

/-- **In an ordered session a global is written to the globals**: no scope around the assignment
declares its name at all. -/
theorem Good.find?_globals
    (h : Good True clock fuel sources
      ⟨n + 1, .evaluate env held (.assign line x .toplevel rhs), σ⟩)
    (hrhs : Scriptlet.evaluate (.recycling clock) n env held rhs σ = .done v σ₁)
    (ht : σ₁.arena.find? env x = some t) : t = globals := by
  cases h with
  | @evaluate _ _ _ _ _ Γ pending _ holds placed inScope _ =>
    obtain ⟨hscoped, htarget, hsettled⟩ := inScope
    obtain ⟨hpending, hsettled⟩ := hsettled trivial
    rw [Layers.target, if_neg hpending] at htarget
    obtain ⟨w, holds₁, leads, -⟩ := holds.evaluate placed hscoped hrhs
    obtain ⟨hactive, hlays⟩ := placed.leads leads
    have hmirrors := holds₁.paired.arena
    have hvalid := holds₁.paired.valid
    -- where all frames are kept, the search ends at the globals
    have hkept := hlays.find?_eq holds₁.layered.labelled holds₁.layered.outermost
      holds₁.layered.nonempty hsettled
    rw [hmirrors.find? hvalid.toShaped (hvalid.live_of_active hactive), ht, ← htarget] at hkept
    have hslot : w.slots t = w.slots globals := by
      rw [hmirrors.globals]
      dsimp only [Option.map_some] at hkept
      split_ifs at hkept
      exact Option.some.inj hkept
    exact hmirrors.inj (hvalid.live_of_get? (Arena.isSome_get?_of_findFrom ht))
      hvalid.globals_live hslot

end Moments

/-- **A function that is called in a scope which has come to bind the name** writes to that scope
where it assigns the global: the globals stay as they are. -/
theorem Visited.exists_shadowed {clock : Nat → Number} {fuel n : Nat} {sources : List String}
    {held : List Value} {line line₁ line₂ line₃ : Nat} {f : Closure} {x : String} {l : Literal}
    {rest : List Stmt} {σ : State}
    (h : Visited (.recycling clock) fuel sources ⟨n + 5, .call held line (.function f) [], σ⟩)
    (hparams : f.params = [])
    (hbody : f.body =
      .expression line₁ (.assign line₂ x .toplevel (.literal line₃ l)) :: rest)
    (hdepth : σ.depth < maxCallDepth) (hne : f.env ≠ globals)
    (hactive : (σ.arena.frame f.env).active) (hbound : (σ.arena.get? f.env x).isSome) :
    ∃ env σ₁ σ',
      Visited (.recycling clock) fuel sources
        ⟨n + 2, .evaluate env held (.assign line₂ x .toplevel (.literal line₃ l)), σ₁⟩ ∧
      evaluate (.recycling clock) (n + 2) env held
        (.assign line₂ x .toplevel (.literal line₃ l)) σ₁ = .done (.ofLiteral l) σ' ∧
      σ'.arena.Shadowed env x ∧ σ'.arena.get? globals x = σ.arena.get? globals x := by
  have hvalid : (σ.world held).Valid := by
    cases good_of_visited h with
    | call holds => exact holds.paired.valid
  have hfind := hvalid.find?_push hactive hbound
  let opened := σ.arena.push f.env held
  let σ₁ : State := { σ with arena := opened.2, depth := σ.depth + 1 }
  have henters : f.Enters [] σ := ⟨by rw [hparams]; rfl, hdepth⟩
  have hstarts : Moment.Starts (.recycling clock) ⟨n + 5, .call held line (.function f) [], σ⟩
      ⟨n + 4, .executeAll opened.1 held f.body, σ₁⟩ :=
    .body henters rfl (by rw [hparams]; rfl)
  rw [hbody] at hstarts
  have hassigned := ((h.starts hstarts).starts .head).starts (.first rfl)
  have hself : (opened.2.get? f.env x).isSome := Arena.isSome_get?_of_findFrom hfind
  refine ⟨opened.1, σ₁, σ₁.define f.env x (.ofLiteral l), hassigned, ?_, ?_, ?_⟩
  · have hwrite := writeVariable_eq opened.1 line₂ x .toplevel (.ofLiteral l) σ₁
    rw [show σ₁.arena.slotAt? opened.1 x .toplevel = some f.env from hfind] at hwrite
    simp only [evaluate]
    exact Eval.bind_eq_done.mpr ⟨_, _, rfl, Eval.bind_eq_done.mpr ⟨_, _, hwrite, rfl⟩⟩
  · obtain ⟨path, hpath, hrest⟩ := hvalid.outward_push (.inl hactive)
    obtain ⟨d, hd⟩ := Arena.ancestor?_of_find? hpath (hvalid.push (.inl hactive)).globals_live
      (hvalid.push (.inl hactive)).globals_outermost hfind
    exact (Arena.shadowed_define hself _).mpr ⟨d, f.env, hd, hne, hself⟩
  · show (opened.2.define f.env x (.ofLiteral l)).get? globals x = _
    rw [Arena.get?_define, if_neg fun h => hne h.1.symm]
    exact congrArg (·.bindings.lookup x) (hvalid.frame_push_of_active f.env hvalid.globals_active)

/-- **What is read after an assignment.** In every session, at every moment of it, an assignment
that ends with a value has the binding that a reference at its place has, and a reference right
after it gives that value: always if it is bound to a scope, and if it is bound to the globals then
unless a frame on the way to them binds the name by then. In that case the innermost such frame has
been given the value, and the reference gives what the globals bound before. In a session of ordered
programs a reference right after an assignment always gives the assigned value. -/
theorem reads_assigned (clock : Nat → Number) (fuel : Nat) (sources : List String) :
    (∀ line line' x old old' b b' rhs rhs' sc sc' sc'',
      Gives (Expr.resolve (.assign line x old rhs)) sc (.assign line x b rhs') sc' →
      Gives (Expr.resolve (.var line' x old')) sc' (.var line' x b') sc'' → b' = b) ∧
    ∀ n env held line x b rhs σ v σ',
      Visited (.recycling clock) fuel sources
        ⟨n + 1, .evaluate env held (.assign line x b rhs), σ⟩ →
      evaluate (.recycling clock) (n + 1) env held (.assign line x b rhs) σ = .done v σ' →
      (¬ (b = .toplevel ∧ σ'.arena.Shadowed env x) →
        ∀ line', readVariable env line' x b σ' = .done v σ') ∧
      (b = .toplevel → σ'.arena.Shadowed env x →
        σ'.arena.lookup? env x = some v ∧
        ∃ σ₁, evaluate (.recycling clock) n env held rhs σ = .done v σ₁ ∧
          σ'.arena.get? globals x = σ₁.arena.get? globals x) ∧
      (AllOrdered sources → ∀ line', readVariable env line' x b σ' = .done v σ') := by
  refine ⟨fun _ _ _ _ _ _ _ _ _ _ _ _ => binding_of_assign, ?_⟩
  intro n env held line x b rhs σ v σ' hvisited hdone
  obtain ⟨σ₁, t, hrhs, ht, rfl⟩ := exists_define_of_assign hdone
  have hbound := Arena.isSome_get?_of_slotAt? ht
  have hread : (b = .toplevel → t = globals) →
      ∀ line', readVariable env line' x b (σ₁.define t x v) = .done v (σ₁.define t x v) := by
    intro hglobal line'
    rw [readVariable_eq, State.define, Arena.valueAt?_define ht hglobal]
  have hshadowed : (σ₁.define t x v).arena.Shadowed env x ↔ σ₁.arena.Shadowed env x :=
    Arena.shadowed_define hbound v
  rw [hshadowed]
  refine ⟨fun hnot => hread ?_, fun hb hsh => ⟨?_, σ₁, hrhs, ?_⟩, fun hordered => hread ?_⟩
  · rintro rfl
    exact ((good_of_visited hvisited).eq_globals_iff hrhs ht).mpr fun hsh => hnot ⟨rfl, hsh⟩
  · subst hb
    exact Arena.valueAt?_define (b := .unresolved) ht (fun h => by cases h) v
  · subst hb
    have hne : t ≠ globals := fun he =>
      ((good_of_visited hvisited).eq_globals_iff hrhs ht).mp he hsh
    rw [State.define, Arena.get?_define, if_neg fun h => hne h.1.symm]
  · rintro rfl
    exact (hvisited.good fun _ => hordered).find?_globals hrhs ht

/-- A function assigns a global, and the scope around it declares the name after the function. -/
theorem program_shadowing :
    program "var a = true; \x7b fun f() a = false; var a = null; f(); \x7d" =
      .ok ([.declare 1 "a" (some (.literal 1 (.bool true)))] ++
        .block 1
          [.function 1 "f" []
            [.expression 1 (.assign 1 "a" .toplevel (.literal 1 (.bool false)))],
          .declare 1 "a" (some (.literal 1 .null)),
          .expression 1 (.call 1 (.var 1 "f" (.enclosing 0)) [])] :: []) := by
  have hscan : scan "var a = true; \x7b fun f() a = false; var a = null; f(); \x7d" =
      .ok [⟨.kwVar, "var", none, 1⟩, ⟨.identifier, "a", none, 1⟩, ⟨.equal, "=", none, 1⟩,
        ⟨.kwTrue, "true", some (.bool true), 1⟩, ⟨.semicolon, ";", none, 1⟩,
        ⟨.leftBrace, "\x7b", none, 1⟩, ⟨.kwFun, "fun", none, 1⟩, ⟨.identifier, "f", none, 1⟩,
        ⟨.leftParen, "(", none, 1⟩, ⟨.rightParen, ")", none, 1⟩, ⟨.identifier, "a", none, 1⟩,
        ⟨.equal, "=", none, 1⟩, ⟨.kwFalse, "false", some (.bool false), 1⟩,
        ⟨.semicolon, ";", none, 1⟩, ⟨.kwVar, "var", none, 1⟩, ⟨.identifier, "a", none, 1⟩,
        ⟨.equal, "=", none, 1⟩, ⟨.kwNull, "null", some .null, 1⟩, ⟨.semicolon, ";", none, 1⟩,
        ⟨.identifier, "f", none, 1⟩, ⟨.leftParen, "(", none, 1⟩, ⟨.rightParen, ")", none, 1⟩,
        ⟨.semicolon, ";", none, 1⟩, ⟨.rightBrace, "\x7d", none, 1⟩, .endOfInput 1] := by
    simp [scan, scanFrom, linesPassed, lexeme?, runLength, withEqual, literal?, TokenKind.ofWord,
      TokenKind.keywords, TokenKind.isSkipped, isBlank, List.lookup_cons]
  have hglobal := Stmt.Written.declare (t := ⟨.kwVar, "var", none, 1⟩)
    (n := ⟨.identifier, "a", none, 1⟩) (m := ⟨.equal, "=", none, 1⟩)
    (q := ⟨.semicolon, ";", none, 1⟩) rfl rfl rfl
    (.literal (t := ⟨.kwTrue, "true", some (.bool true), 1⟩) rfl) rfl
  have hassign := Expr.Written.assign (n := ⟨.identifier, "a", none, 1⟩)
    (q := ⟨.equal, "=", none, 1⟩) rfl rfl
    (.literal (t := ⟨.kwFalse, "false", some (.bool false), 1⟩) rfl)
  have hfunction := Stmt.Written.shortFunction (f := ⟨.kwFun, "fun", none, 1⟩)
    (n := ⟨.identifier, "f", none, 1⟩) (l := ⟨.leftParen, "(", none, 1⟩)
    (r := ⟨.rightParen, ")", none, 1⟩) rfl rfl rfl .nil rfl
    (.expression (q := ⟨.semicolon, ";", none, 1⟩) hassign rfl) ⟨rfl, rfl⟩
  have hlocal := Stmt.Written.declare (t := ⟨.kwVar, "var", none, 1⟩)
    (n := ⟨.identifier, "a", none, 1⟩) (m := ⟨.equal, "=", none, 1⟩)
    (q := ⟨.semicolon, ";", none, 1⟩) rfl rfl rfl
    (.literal (t := ⟨.kwNull, "null", some .null, 1⟩) rfl) rfl
  have hcall := Expr.Written.call (l := ⟨.leftParen, "(", none, 1⟩)
    (r := ⟨.rightParen, ")", none, 1⟩) (.var (t := ⟨.identifier, "f", none, 1⟩) rfl) rfl .nil rfl
  have hblock := Stmt.Written.block (l := ⟨.leftBrace, "\x7b", none, 1⟩)
    (r := ⟨.rightBrace, "\x7d", none, 1⟩) rfl (.cons hfunction (.cons hlocal (.cons
      (.expression (q := ⟨.semicolon, ";", none, 1⟩) hcall rfl) .nil))) rfl
  have htree := tree_eq_ok.mpr ⟨_, hscan, Grammar.parse_eq_ok.mpr ⟨_, [.endOfInput 1], rfl,
    Grammar.chained_sentence_iff.mpr ⟨.cons hglobal (.cons hblock .nil), by
      simp [Stmt.AllWellFormed, Stmt.WellFormed, Expr.WellFormed, Expr.AllWellFormed, Expr.level,
        maxParameters], by decide⟩, by simp [Token.endOfInput]⟩⟩
  unfold program
  rw [htree]
  rfl

/-- A function assigns a global, and the scope around the function declares the name after it: the
assignment has reached the frame of that scope. -/
theorem exists_shadowed_assign :
    ∃ (n : Nat) (env : Slot) (held : List Value) (rhs : Expr) (σ σ' : State),
      Visited (.recycling fun _ => ⟨0⟩) 13
        ["var a = true; \x7b fun f() a = false; var a = null; f(); \x7d"]
        ⟨n + 1, .evaluate env held (.assign 1 "a" .toplevel rhs), σ⟩ ∧
      evaluate (.recycling fun _ => ⟨0⟩) (n + 1) env held (.assign 1 "a" .toplevel rhs) σ =
        .done (.bool false) σ' ∧
      σ'.arena.Shadowed env "a" ∧ σ'.arena.get? globals "a" = some (.bool true) := by
  let body : List Stmt := [.expression 1 (.assign 1 "a" .toplevel (.literal 1 (.bool false)))]
  let host : Host := .recycling fun _ => ⟨0⟩
  let σ₁ := State.start.define globals "a" (.bool true)
  have hreached : topLevelFrom host 13 .null [.declare 1 "a" (some (.literal 1 (.bool true)))]
      State.start = some ⟨.null, none, σ₁⟩ := by
    simp only [topLevelFrom, topLevel, execute, evaluate]
    rfl
  have hunits : ["var a = true; \x7b fun f() a = false; var a = null; f(); \x7d"] =
    [] ++ "var a = true; \x7b fun f() a = false; var a = null; f(); \x7d" :: [] := rfl
  have hbegins := Visited.begins (.reached hunits rfl program_shadowing hreached)
  let opened := σ₁.push host globals [.null]
  let f : Closure := ⟨0, "f", [], body, opened.1⟩
  let σ₂ : State := { opened.2 with
    arena := (host.track f [.null] (opened.2.arena.capture opened.1)).define opened.1 "f" (.function f)
    functions := 1 }
  have hdeclared : execute host 11 opened.1 [.null] (.function 1 "f" [] body) opened.2 =
      .done .next σ₂ := by
    simp only [execute]
    rfl
  let σ₃ := σ₂.define opened.1 "a" .null
  have hdefined : execute host 10 opened.1 [.null] (.declare 1 "a" (some (.literal 1 .null))) σ₂ =
      .done .next σ₃ := by
    simp only [execute, evaluate]
    rfl
  have hfound : evaluate host 7 opened.1 [.null] (.var 1 "f" (.enclosing 0)) σ₃ =
      .done (.function f) σ₃ := by
    have hvalue : σ₃.arena.valueAt? opened.1 "f" (.enclosing 0) = some (.function f) := by
      simp only [Arena.valueAt?, Arena.getAt?, Arena.ancestor?, Option.bind_some]
      simp only [σ₃, State.define, Arena.get?_define, String.reduceEq, false_and, and_false,
        if_false]
      exact Arena.get?_define_self (by decide) _ _
    rw [evaluate, readVariable_eq, hvalue]
  have hargs : evaluateAll host 7 opened.1 [.function f, .null] [] σ₃ = .done [] σ₃ := by
    simp only [evaluateAll]
    rfl
  have hcalled := ((((((hbegins.starts (.block rfl)).starts (.tail hdeclared)).starts
    (.tail hdefined)).starts .head).starts (.first rfl)).starts (.call hfound hargs))
  have hself := Arena.get?_define_self (a := σ₂.arena) (s := opened.1) (by decide) "a" .null
  obtain ⟨env, σ, σ', hassigned, hwritten, hshadowed, hglobal⟩ :=
    hcalled.exists_shadowed rfl rfl (by decide) (by decide) (by decide)
      (Option.isSome_iff_exists.mpr ⟨_, hself⟩)
  refine ⟨_, env, _, _, σ, σ', hassigned, hwritten, hshadowed, hglobal.trans ?_⟩
  have hvalid : (σ₁.world [.null]).Valid := by
    cases good_of_visited hbegins with
    | execute holds => exact holds.paired.valid
  have hframe : opened.2.arena.frame globals = σ₁.arena.frame globals :=
    hvalid.frame_push_of_active globals hvalid.globals_active
  have hne : globals ≠ opened.1 := by decide
  have hbindings : (σ₃.arena.frame globals).bindings = (σ₁.arena.frame globals).bindings := by
    simp only [σ₃, σ₂, State.define, Arena.frame_define_of_ne hne, Host.frame_track]
    rw [Arena.bindings_capture, hframe]
  rw [Arena.get?, hbindings]
  exact Arena.get?_define_self (a := State.start.arena) (s := globals) (by decide) _ _

/-- **An assignment of a global may not be read back**: the function that makes it was declared
before a variable of the same name in the scope around it. -/
theorem not_reads_assigned :
    ¬ ∀ (clock : Nat → Number) (fuel : Nat) (sources : List String) (n : Nat) (env : Slot)
      (held : List Value) (line line' : Nat) (x : String) (b : Binding) (rhs : Expr)
      (σ σ' : State) (v : Value),
      Visited (.recycling clock) fuel sources
        ⟨n + 1, .evaluate env held (.assign line x b rhs), σ⟩ →
      evaluate (.recycling clock) (n + 1) env held (.assign line x b rhs) σ = .done v σ' →
      readVariable env line' x b σ' = .done v σ' := by
  intro hreads
  obtain ⟨n, env, held, rhs, σ, σ', hvisited, hdone, -, hglobal⟩ := exists_shadowed_assign
  have hread := hreads _ _ _ _ _ _ 1 1 _ _ _ _ _ _ hvisited hdone
  rw [readVariable_eq, show σ'.arena.valueAt? env "a" .toplevel = _ from hglobal] at hread
  cases hread

/-- The innermost frame that binds the name was written, and not the globals. -/
theorem reads_assigned_shadowed :
    ∃ (n : Nat) (env : Slot) (held : List Value) (rhs : Expr) (σ σ' : State),
      Visited (.recycling fun _ => ⟨0⟩) 13
        ["var a = true; \x7b fun f() a = false; var a = null; f(); \x7d"]
        ⟨n + 1, .evaluate env held (.assign 1 "a" .toplevel rhs), σ⟩ ∧
      evaluate (.recycling fun _ => ⟨0⟩) (n + 1) env held (.assign 1 "a" .toplevel rhs) σ =
        .done (.bool false) σ' ∧
      σ'.arena.Shadowed env "a" ∧ σ'.arena.lookup? env "a" = some (.bool false) := by
  obtain ⟨n, env, held, rhs, σ, σ', hvisited, hdone, hshadowed, -⟩ := exists_shadowed_assign
  obtain ⟨-, hunread, -⟩ := (reads_assigned _ _ _).2 _ _ _ _ _ _ _ _ _ _ hvisited hdone
  exact ⟨n, env, held, rhs, σ, σ', hvisited, hdone, hshadowed, (hunread rfl hshadowed).1⟩

end Scriptlet
