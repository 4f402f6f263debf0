import Scriptlet.Proofs.Scope.Resolver

/-!
# Stability of scope analysis

A pass of a resolver goes along the places of a program. It binds the references up to the first
fault to the innermost scope around them that has declared their name, and leaves all further ones
alone. Nothing in this depends on the bindings that the program comes with, nor on what the resolver
has seen before, so that a second pass finds what the first one has written.

* `Place.target?`: what a reference is bound to.
* `Trail.Stops`: a trail that ends between two places, at the first fault or after the last place.
* `Pass.Follows`: **a pass follows an outline**, up to its first fault. `Pass.Follows.andThen`
  composes passes.
* `Stmt.pass_follows`, `Stmt.passAll_follows`: the pass over a statement follows its outline.
* `resolve_stable`: **scope analysis changes bindings only, always to the same ones, and up to the
  first fault only; and it is idempotent.**
-/

namespace Scriptlet

/-! ## References of an outline -/

namespace Place

/-- The reference at a place, with the binding it has in the program. -/
def reference? (p : Place) : Option Reference := p.part.reference?

/-- The reference at a place, bound to the innermost scope that has declared its name. -/
def target? (p : Place) : Option Reference :=
  p.reference?.map fun reference => (reference.1, Level.find p.around reference.1)

theorem length_filterMap_target? (ps : List Place) :
    (ps.filterMap target?).length = (ps.filterMap reference?).length := by
  induction ps with
  | nil => rfl
  | cons p ps ih => cases h : p.reference? <;> simp [target?, h, ih]

end Place

/-- The references of an outline. -/
def Outline.references (around : List Level) (parts : List Outline) : List Reference :=
  (allPlaces around parts).filterMap Place.reference?

namespace Outline

theorem references_append (around : List Level) (xs ys : List Outline) :
    references around (xs ++ ys) =
      references around xs ++ references (Level.declare (declared xs) around) ys := by
  rw [references, allPlaces_append, List.filterMap_append]
  rfl

theorem references_scope (around : List Level) (isFunction : Bool) (parts : List Outline) :
    references around [.scope isFunction parts] =
      references (⟨isFunction, []⟩ :: around) parts := by
  rw [references, allPlaces_scope]
  rfl

theorem references_declares_cons (around : List Level) (x : String) (line : Nat)
    (parts : List Outline) :
    references around (.declares x line :: parts) = references (Level.declare [x] around) parts :=
  references_append around [.declares x line] parts

theorem references_declaresAll_append (around : List Level) (names : List String) (line : Nat)
    (parts : List Outline) :
    references around (names.map (Outline.declares · line) ++ parts) =
      references (Level.declare names around) parts := by
  induction names generalizing around with
  | nil => rw [List.map_nil, List.nil_append, Level.declare_nil]
  | cons x names ih =>
    rw [List.map_cons, List.cons_append, references_declares_cons, ih, Level.declare_declare]
    rfl

theorem references_returns_cons (around : List Level) (line : Nat) (parts : List Outline) :
    references around (.returns line :: parts) = references around parts := by
  have hdeclared : declared [.returns line] = [] := rfl
  have h := references_append around [.returns line] parts
  rwa [hdeclared, Level.declare_nil] at h

end Outline

open Outline in
mutual

theorem Expr.references_outline (initializes : Option String) : ∀ (e : Expr) (around : List Level),
    Outline.references around (e.outline initializes) = e.bindings
  | .literal .., around => rfl
  | .var .., around => rfl
  | .assign _ _ _ value, around => by
    rw [Expr.outline, Expr.bindings, references_append, value.references_outline]
    rfl
  | .get _ _ e, around | .group _ e, around | .unary _ _ e, around => by
    rw [Expr.outline, Expr.bindings, e.references_outline]
  | .binary _ _ l r, around | .logical _ _ l r, around | .set _ _ r l, around => by
    rw [Expr.outline, Expr.bindings, references_append, l.references_outline, r.references_outline]
  | .call _ callee arguments, around => by
    rw [Expr.outline, Expr.bindings, references_append, callee.references_outline,
      Expr.references_allOutline initializes arguments]

theorem Expr.references_allOutline (initializes : Option String) :
    ∀ (es : List Expr) (around : List Level),
    Outline.references around (Expr.allOutline initializes es) = Expr.allBindings es
  | [], around => rfl
  | e :: es, around => by
    rw [Expr.allOutline, Expr.allBindings, references_append, e.references_outline,
      Expr.references_allOutline initializes es]

end

theorem Expr.references_outlineOption (initializes : Option String) (e : Option Expr)
    (around : List Level) :
    Outline.references around (Expr.outlineOption initializes e) = Expr.bindingsOption e := by
  cases e with
  | none => rfl
  | some e => exact e.references_outline initializes around

open Outline in
mutual

theorem Stmt.references_outline : ∀ (s : Stmt) (around : List Level),
    Outline.references around s.outline = s.bindings
  | .block _ body, around => by
    rw [Stmt.outline, Stmt.bindings, references_scope, Stmt.references_allOutline body]
  | .expression _ e, around => by rw [Stmt.outline, Stmt.bindings, e.references_outline]
  | .function line name params body, around => by
    rw [Stmt.outline, Stmt.bindings, references_declares_cons, references_scope,
      references_declaresAll_append, Stmt.references_allOutline body]
  | .ifThen _ c s, around | .whileLoop _ c s, around => by
    rw [Stmt.outline, Stmt.bindings, references_append, c.references_outline, s.references_outline]
  | .ifElse _ c yes no, around => by
    rw [Stmt.outline, Stmt.bindings, references_append, references_append, c.references_outline,
      yes.references_outline, no.references_outline]
  | .giveBack _ e, around => by
    rw [Stmt.outline, Stmt.bindings, references_returns_cons, Expr.references_outlineOption]
  | .declare _ _ e, around => by
    rw [Stmt.outline, Stmt.bindings, references_declares_cons, Expr.references_outlineOption]
  | .forLoop _ _ e body, around => by
    rw [Stmt.outline, Stmt.bindings, references_append, references_scope, references_declares_cons,
      e.references_outline, body.references_outline]

/-- **The references of a program are those of its outline**, in the same order. -/
theorem Stmt.references_allOutline : ∀ (ss : List Stmt) (around : List Level),
    Outline.references around (Stmt.allOutline ss) = Stmt.allBindings ss
  | [], around => rfl
  | s :: ss, around => by
    rw [Stmt.allOutline, Stmt.allBindings, references_append, s.references_outline,
      Stmt.references_allOutline ss]

end

/-! ## Trails along places -/

theorem Scopes.Tracks.declare_nil {sc : Scopes} {around : List Level} {pending : Option String}
    (h : sc.Tracks around pending) : sc.Tracks (Level.declare [] around) pending := by
  rwa [Level.declare_nil]

/-- **A trail that stops between two places**: it has bound the references before, where there is no
fault. What stopped it is the fault at the first place after, or else that there is none. -/
structure Trail.Stops (t : Trail) (before after : List Place) : Prop where
  sound : ∀ p ∈ before, p.fault? = none
  written : t.written = before.filterMap Place.target?
  error : t.error? = after.head?.bind Place.fault?
  last : t.error? = none → after = []

theorem Trail.Stops.append {t : Trail} {before after : List Place} {e : ScopeError}
    (h : t.Stops before after) (he : t.error? = some e) (more : List Place) :
    t.Stops before (after ++ more) where
  sound := h.sound
  written := h.written
  error := by
    have herror := h.error
    cases after with
    | nil =>
      rw [he] at herror
      cases herror
    | cons p after => exact herror
  last := by
    rw [he]
    nofun

namespace Pass

variable {p q : Pass} {around : List Level} {parts xs ys : List Outline} {part : Outline}
  {pending pending' pending'' : Option String}

/-- **A pass follows an outline**: from the scopes around a place it goes along the places of the
outline, and stops at the first fault. If there is none then it has declared what the outline
declares. -/
def Follows (p : Pass) (around : List Level) (parts : List Outline)
    (pending pending' : Option String) : Prop :=
  ∀ sc : Scopes, sc.Tracks around pending →
    (∃ before after, Outline.allPlaces around parts = before ++ after ∧
      (p sc).Stops before after) ∧
    ((p sc).error? = none →
      (p sc).scopes.Tracks (Level.declare (Outline.declared parts) around) pending')

/-- **Passes compose.** -/
theorem Follows.andThen (hp : p.Follows around xs pending pending')
    (hq : q.Follows (Level.declare (Outline.declared xs) around) ys pending' pending'') :
    (p.andThen q).Follows around (xs ++ ys) pending pending'' := by
  intro sc htracks
  obtain ⟨⟨before, after, hplaces, hstops⟩, hdeclares⟩ := hp sc htracks
  rw [Outline.allPlaces_append, hplaces, Outline.declared_append, ← Level.declare_declare]
  cases herror : (p sc).error? with
  | some e =>
    rw [andThen_of_error herror]
    refine ⟨⟨before, _, List.append_assoc .., hstops.append herror _⟩, ?_⟩
    rw [herror]
    nofun
  | none =>
    -- the first pass has reached its end, and the second one starts where it stopped
    obtain ⟨⟨before', after', hplaces', hstops'⟩, hdeclares'⟩ := hq _ (hdeclares herror)
    obtain rfl : after = [] := hstops.last herror
    rw [andThen_of_done herror]
    refine ⟨⟨before ++ before', after', ?_, ?_⟩, hdeclares'⟩
    · rw [hplaces', List.append_nil, List.append_assoc]
    · refine ⟨List.forall_mem_append.mpr ⟨hstops.sound, hstops'.sound⟩, ?_, hstops'.error,
        hstops'.last⟩
      rw [List.filterMap_append, ← hstops.written, ← hstops'.written]

theorem follows_done : done.Follows around [] pending pending := by
  intro sc htracks
  exact ⟨⟨[], [], rfl, nofun, rfl, rfl, fun _ => rfl⟩, fun _ => htracks.declare_nil⟩

theorem follows_single (hplaces : Outline.allPlaces around [part] = [⟨around, part⟩])
    (h : ∀ sc : Scopes, sc.Tracks around pending →
      match Place.fault? ⟨around, part⟩ with
      | some e => ∃ sc', p sc = ⟨sc', [], some e⟩
      | none => ∃ sc', p sc = ⟨sc', (Place.target? ⟨around, part⟩).toList, none⟩ ∧
          sc'.Tracks (Level.declare part.names around) pending') :
    p.Follows around [part] pending pending' := by
  intro sc htracks
  specialize h sc htracks
  rw [hplaces]
  cases hfault : Place.fault? ⟨around, part⟩ with
  | some e =>
    rw [hfault] at h
    obtain ⟨sc', hp⟩ := h
    rw [hp]
    exact ⟨⟨[], [⟨around, part⟩], rfl, nofun, rfl, hfault.symm, nofun⟩, nofun⟩
  | none =>
    rw [hfault] at h
    obtain ⟨sc', hp, htracks'⟩ := h
    rw [hp]
    refine ⟨⟨[⟨around, part⟩], [], rfl, ?_, ?_, rfl, fun _ => rfl⟩, fun _ => ?_⟩
    · rintro _ (_ | ⟨_, ⟨⟩⟩)
      exact hfault
    · cases htarget : Place.target? ⟨around, part⟩ <;> simp [htarget]
    · rwa [Outline.declared_cons, Outline.declared_nil, List.append_nil]

theorem follows_read (x : String) (line : Nat) (old : Binding) (initializes : Option String) :
    ((check (·.read x line)).andThen (write x)).Follows around [.reads x line old initializes]
      initializes initializes := by
  refine follows_single rfl fun sc htracks => ?_
  have hread := htracks.read x line
  have hfind := htracks.find x
  simp only [Place.fault?]
  split_ifs at hread ⊢
  · exact ⟨sc, by simp only [Pass.andThen, check, hread]⟩
  · refine ⟨sc, ?_, ?_⟩
    · simp only [Pass.andThen, check, hread, write, hfind]
      rfl
    · exact htracks.declare_nil

theorem follows_assign (x : String) (old : Binding) :
    (write x).Follows around [.assigns x old] pending pending := by
  refine follows_single rfl fun sc htracks => ⟨sc, ?_, ?_⟩
  · rw [write, htracks.find x]
    rfl
  · exact htracks.declare_nil

theorem follows_leave (line : Nat) :
    (check (·.leave line)).Follows around [.returns line] none none := by
  refine follows_single rfl fun sc htracks => ?_
  have hleave := htracks.leave line
  simp only [Place.fault?]
  split_ifs at hleave ⊢
  · refine ⟨sc, ?_, ?_⟩
    · simp only [check, hleave]
      rfl
    · exact htracks.declare_nil
  · exact ⟨sc, by simp only [check, hleave]⟩

theorem follows_declare (x : String) (line : Nat) :
    (check (·.declare x line)).Follows around [.declares x line] none (some x) := by
  refine follows_single rfl fun sc htracks => ?_
  have hdeclare := htracks.declare x line
  simp only [Place.fault?]
  split_ifs at hdeclare ⊢
  · exact ⟨sc, by simp only [check, hdeclare]⟩
  · obtain ⟨sc', hok, htracks'⟩ := hdeclare
    refine ⟨sc', ?_, htracks'⟩
    simp only [check, hok]
    rfl

theorem Follows.define {x : String} (hp : p.Follows around parts pending (some x)) :
    (p.andThen (change (·.define x))).Follows around parts pending none := by
  have hdefine : (change (·.define x)).Follows
      (Level.declare (Outline.declared parts) around) [] (some x) none := by
    intro sc htracks
    exact ⟨⟨[], [], rfl, nofun, rfl, rfl, fun _ => rfl⟩, fun _ => htracks.define.declare_nil⟩
  have h := hp.andThen hdefine
  rwa [List.append_nil] at h

theorem follows_introduce (x : String) (line : Nat) :
    (introduce x line).Follows around [.declares x line] none none :=
  (follows_declare x line).define

theorem follows_introduceAll (line : Nat) (names : List String) :
    (introduceAll line names).Follows around (names.map (Outline.declares · line)) none none := by
  induction names generalizing around with
  | nil => exact follows_done
  | cons x names ih => exact (follows_introduce x line).andThen ih

/-- **A scope** is entered, passed through and left. -/
theorem Follows.inside {isFunction : Bool} {enter leave : Scopes → Scopes}
    (henter : ∀ {sc : Scopes} {around : List Level}, sc.Tracks around none →
      (enter sc).Tracks (⟨isFunction, []⟩ :: around) none)
    (hleave : ∀ {sc : Scopes} {around : List Level} {names : List String},
      sc.Tracks (⟨isFunction, names⟩ :: around) none → (leave sc).Tracks around none)
    (hp : p.Follows (⟨isFunction, []⟩ :: around) parts none none) :
    (inside enter leave p).Follows around [.scope isFunction parts] none none := by
  intro sc htracks
  obtain ⟨⟨before, after, hplaces, hstops⟩, hdeclares⟩ := hp (enter sc) (henter htracks)
  rw [Outline.allPlaces_scope]
  refine ⟨⟨before, after, hplaces, hstops.sound, hstops.written, hstops.error, hstops.last⟩,
    fun hnone => ?_⟩
  exact (hleave (hdeclares hnone)).declare_nil

end Pass

open Pass

mutual

/-- **The pass over an expression follows its outline.** -/
theorem Expr.pass_follows (initializes : Option String) : ∀ (e : Expr) {around : List Level},
    e.pass.Follows around (e.outline initializes) initializes initializes
  | .literal .., around => by
    rw [Expr.pass, Expr.outline]
    exact follows_done
  | .var line x old, around => by
    rw [Expr.pass, Expr.outline]
    exact follows_read x line old initializes
  | .assign _ x old value, around => by
    rw [Expr.pass, Expr.outline]
    exact (value.pass_follows initializes).andThen (follows_assign x old)
  | .get _ _ e, around | .group _ e, around | .unary _ _ e, around => by
    rw [Expr.pass, Expr.outline]
    exact e.pass_follows initializes
  | .binary _ _ l r, around | .logical _ _ l r, around | .set _ _ r l, around => by
    rw [Expr.pass, Expr.outline]
    exact (l.pass_follows initializes).andThen (r.pass_follows initializes)
  | .call _ callee arguments, around => by
    rw [Expr.pass, Expr.outline]
    exact (callee.pass_follows initializes).andThen (Expr.passAll_follows initializes arguments)

theorem Expr.passAll_follows (initializes : Option String) : ∀ (es : List Expr)
    {around : List Level},
    (Expr.passAll es).Follows around (Expr.allOutline initializes es) initializes initializes
  | [], around => by
    rw [Expr.passAll, Expr.allOutline]
    exact follows_done
  | e :: es, around => by
    rw [Expr.passAll, Expr.allOutline]
    exact (e.pass_follows initializes).andThen (Expr.passAll_follows initializes es)

end

theorem Expr.passOption_follows (initializes : Option String) (e : Option Expr)
    {around : List Level} :
    (Expr.passOption e).Follows around (Expr.outlineOption initializes e) initializes
      initializes := by
  cases e with
  | none => exact follows_done
  | some e => exact e.pass_follows initializes

mutual

/-- **The pass over a statement follows its outline.** -/
theorem Stmt.pass_follows : ∀ (s : Stmt) {around : List Level},
    s.pass.Follows around s.outline none none
  | .block _ body, around => by
    rw [Stmt.pass, Stmt.outline]
    exact (Stmt.passAll_follows body).inside .push .pop
  | .expression _ e, around => by
    rw [Stmt.pass, Stmt.outline]
    exact e.pass_follows none
  | .function line name params body, around => by
    rw [Stmt.pass, Stmt.outline]
    exact (follows_introduce name line).andThen
      (((follows_introduceAll line params).andThen (Stmt.passAll_follows body)).inside
        .enterFunction .leaveFunction)
  | .ifThen _ c s, around | .whileLoop _ c s, around => by
    rw [Stmt.pass, Stmt.outline]
    exact (c.pass_follows none).andThen s.pass_follows
  | .ifElse _ c yes no, around => by
    rw [Stmt.pass, Stmt.outline]
    exact (c.pass_follows none).andThen (yes.pass_follows.andThen no.pass_follows)
  | .giveBack line e, around => by
    rw [Stmt.pass, Stmt.outline]
    exact (follows_leave line).andThen (Expr.passOption_follows none e)
  | .declare line name e, around => by
    rw [Stmt.pass, Stmt.outline]
    -- the name is declared during the initialiser, but cannot be read
    exact (follows_declare name line).andThen (Expr.passOption_follows (some name) e).define
  | .forLoop line name e body, around => by
    rw [Stmt.pass, Stmt.outline]
    exact (e.pass_follows none).andThen
      (((follows_introduce name line).andThen body.pass_follows).inside .push .pop)

theorem Stmt.passAll_follows : ∀ (ss : List Stmt) {around : List Level},
    (Stmt.passAll ss).Follows around (Stmt.allOutline ss) none none
  | [], around => by
    rw [Stmt.passAll, Stmt.allOutline]
    exact follows_done
  | s :: ss, around => by
    rw [Stmt.passAll, Stmt.allOutline]
    exact s.pass_follows.andThen (Stmt.passAll_follows ss)

end

/-! ## Programs -/

/-- **The pass of a resolver over a program** depends neither on the bindings of the program nor on
what the resolver has held before. -/
theorem Resolver.pass_congr (r r' : Resolver) {ss ss' : List Stmt}
    (h : Stmt.allUnbound ss' = Stmt.allUnbound ss) : r'.pass ss' = r.pass ss := by
  have hpass : Stmt.passAll ss' = Stmt.passAll ss := by
    rw [← Stmt.passAll_unbound ss', h, Stmt.passAll_unbound]
  rw [Resolver.pass, hpass]
  rfl

/-- **Scope analysis is idempotent**: a second one writes what is there already. -/
theorem resolve_resolve (ss : List Stmt) : resolve (resolve ss).1 = resolve ss := by
  have r : Resolver := .outermost
  obtain ⟨herror, hfirst⟩ := r.resolve_eq_pass ss
  obtain ⟨herror', hsecond⟩ := r.resolve_eq_pass (resolve ss).1
  have hpass : r.pass (resolve ss).1 = r.pass ss := r.pass_congr r hfirst.unbound
  refine Prod.ext (hsecond.same ?_) ?_
  · rw [hpass, hfirst.bindings, Trail.overwrite_overwrite]
  · rw [herror', hpass, herror]

/-- **Scope analysis is stable and touches only bindings.** Up to the first fault every reference is
bound to the innermost scope around it that has declared its name, and from there on, the place of
the fault included, every reference keeps its binding. All resolvers, whatever they have seen
before, meet the same error in all programs that differ in their bindings only, write the same
bindings into them, and have no scope open afterwards. A second analysis changes nothing. -/
theorem resolve_stable (ss : List Stmt) :
    Stmt.allUnbound (resolve ss).1 = Stmt.allUnbound ss ∧
    resolve (resolve ss).1 = resolve ss ∧
    ∃ before after : List Place,
      Outline.allPlaces [] (Stmt.allOutline ss) = before ++ after ∧
      (∀ p ∈ before, p.fault? = none) ∧
      (resolve ss).2 = after.head?.bind Place.fault? ∧
      ((resolve ss).2 = none → after = []) ∧
      Stmt.allBindings ss =
        before.filterMap Place.reference? ++ after.filterMap Place.reference? ∧
      Stmt.allBindings (resolve ss).1 =
        before.filterMap Place.target? ++ after.filterMap Place.reference? ∧
      ∀ (r : Resolver) (ss' : List Stmt), Stmt.allUnbound ss' = Stmt.allUnbound ss →
        r.pass ss' = ⟨.outermost, before.filterMap Place.target?, (resolve ss).2⟩ ∧
        (resolve ss').2 = (r.pass ss').error? ∧
        Stmt.allBindings (resolve ss').1 = (r.pass ss').overwrite (Stmt.allBindings ss') := by
  have fresh : Resolver := .outermost
  obtain ⟨herror, hrebound⟩ := fresh.resolve_eq_pass ss
  obtain ⟨before, after, hplaces, hstops⟩ :=
    (Stmt.passAll_follows ss .outermost Scopes.Tracks.outermost).1
  have hpass : fresh.pass ss = Stmt.passAll ss .outermost := rfl
  rw [← hpass] at hstops
  have hold : Stmt.allBindings ss =
      before.filterMap Place.reference? ++ after.filterMap Place.reference? := by
    rw [← Stmt.references_allOutline ss [], Outline.references, hplaces, List.filterMap_append]
  refine ⟨hrebound.unbound, resolve_resolve ss, before, after, hplaces, hstops.sound,
    herror.trans hstops.error, fun hnone => hstops.last (herror ▸ hnone), hold, ?_,
    fun r ss' hunbound => ⟨?_, (r.resolve_eq_pass ss').1, (r.resolve_eq_pass ss').2.bindings⟩⟩
  · rw [hrebound.bindings, Trail.overwrite, hstops.written, hold,
      List.drop_left' (Place.length_filterMap_target? before).symm]
  · rw [fresh.pass_congr r hunbound, herror, ← hstops.written, ← fresh.scopes_pass ss]

/-- A variable is read in its own initialiser: the read before is bound, this one and the next are
not. A resolver with scopes left open from before meets the same error. -/
theorem resolve_stable_ownInitializer :
    let program (old : Binding) : List Stmt := [.block 1 [.declare 2 "a" none,
      .expression 3 (.var 3 "a" old), .declare 4 "b" (some (.var 4 "b" old)),
      .expression 5 (.var 5 "a" old)]]
    Stmt.allUnbound (program .toplevel) = Stmt.allUnbound (program .unresolved) ∧
    Stmt.allBindings (resolve (program .unresolved)).1 =
      [("a", .enclosing 0), ("b", .unresolved), ("a", .unresolved)] ∧
    (Resolver.pass ⟨[[("a", false)]], 1⟩ (program .toplevel)).error? =
      some (.readInOwnInitializer "b" 4) := by
  intro program
  obtain ⟨-, -, _, _, -, -, -, -, -, -, hall⟩ := resolve_stable (program .unresolved)
  obtain ⟨hpass, -⟩ := hall ⟨[[("a", false)]], 1⟩ (program .toplevel) rfl
  refine ⟨rfl, rfl, ?_⟩
  rw [hpass]
  rfl

end Scriptlet
