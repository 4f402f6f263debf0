import Scriptlet.Proofs.Scope.Resolution

/-!
# Outlines of programs

Of a program only its declarations, its references and its returns matter to scope analysis, with
the scopes they stand in. The outline of a program is what is left of it then, in the order in
which scope analysis meets it, and a place of the outline knows the scopes around it.

* `Outline`, `Stmt.outline`: the outline of a program.
* `Outline.allPlaces`: **the places of an outline**, each with the scopes around it and the names
  that these have declared up to it.
* `Place.fault?`: the violation of the rules of scope at a place.
* `Walk.Follows`: **a walk follows an outline**: it fails at the first fault of the outline and with
  that fault, and without a fault it succeeds. `Walk.Follows.bind` composes walks.
* `Stmt.follows`, `Stmt.followsAll`: scope analysis follows the outline of every statement.
-/

namespace Scriptlet

/-! ## Outlines -/

/-- A part of an outline. A read knows the variable whose initialiser it stands in. -/
inductive Outline where
  | declares (name : String) (line : Nat)
  | reads (name : String) (line : Nat) (binding : Binding) (initializes : Option String)
  | assigns (name : String) (binding : Binding)
  | returns (line : Nat)
  | scope (isFunction : Bool) (parts : List Outline)

mutual

/-- The references of an expression. What is assigned comes before what it is assigned to. -/
def Expr.outline (initializes : Option String) : Expr → List Outline
  | .literal .. => []
  | .var line name binding => [.reads name line binding initializes]
  | .assign _ name binding value => value.outline initializes ++ [.assigns name binding]
  | .get _ _ e | .group _ e | .unary _ _ e => e.outline initializes
  | .binary _ _ l r | .logical _ _ l r => l.outline initializes ++ r.outline initializes
  | .set _ _ object value => value.outline initializes ++ object.outline initializes
  | .call _ callee arguments =>
    callee.outline initializes ++ Expr.allOutline initializes arguments

def Expr.allOutline (initializes : Option String) : List Expr → List Outline
  | [] => []
  | e :: es => e.outline initializes ++ Expr.allOutline initializes es

end

def Expr.outlineOption (initializes : Option String) : Option Expr → List Outline
  | none => []
  | some e => e.outline initializes

mutual

/-- The outline of a statement. A declaration comes before its initialiser or body. The scope of a
function holds its parameters, which are declared on the line of the function, and the scope of a
loop holds its variable but not what it runs over. -/
def Stmt.outline : Stmt → List Outline
  | .block _ body => [.scope false (Stmt.allOutline body)]
  | .expression _ e => e.outline none
  | .function line name params body =>
    [.declares name line,
      .scope true (params.map (Outline.declares · line) ++ Stmt.allOutline body)]
  | .ifThen _ c yes => c.outline none ++ yes.outline
  | .ifElse _ c yes no => c.outline none ++ (yes.outline ++ no.outline)
  | .giveBack line value => .returns line :: Expr.outlineOption none value
  | .declare line name initial => .declares name line :: Expr.outlineOption (some name) initial
  | .whileLoop _ c body => c.outline none ++ body.outline
  | .forLoop line name e body =>
    e.outline none ++ [.scope false (.declares name line :: body.outline)]

def Stmt.allOutline : List Stmt → List Outline
  | [] => []
  | s :: ss => s.outline ++ Stmt.allOutline ss

end

/-! ## Places -/

/-- A scope around a place, with the names that it has declared up to there. -/
structure Level where
  isFunction : Bool
  names : List String

/-- The names declared so far in the innermost scope. -/
def Level.innermost (around : List Level) : List String := (around.head?.map Level.names).getD []

/-- The scopes after a declaration of names in the innermost one. -/
def Level.declare (names : List String) : List Level → List Level
  | [] => []
  | l :: outer => { l with names := l.names ++ names } :: outer

/-- A part of an outline that is no scope, with the scopes around it, innermost first. -/
structure Place where
  around : List Level
  part : Outline

namespace Outline

/-- The names that a part declares in the scope it stands in. -/
def names : Outline → List String
  | .declares name _ => [name]
  | _ => []

/-- The names that an outline declares outside its scopes, in order. -/
def declared (parts : List Outline) : List String := parts.flatMap names

mutual

/-- The places of a part, given the scopes around it. -/
def places : List Level → Outline → List Place
  | around, .scope isFunction parts => allPlaces (⟨isFunction, []⟩ :: around) parts
  | around, part => [⟨around, part⟩]

/-- **The places of an outline**, from first to last. -/
def allPlaces : List Level → List Outline → List Place
  | _, [] => []
  | around, part :: parts =>
    places around part ++ allPlaces (Level.declare part.names around) parts

end

end Outline

/-- **The fault at a place**: a second declaration of a name in one scope, a read of a variable in
its own initialiser unless it is a global, or a return outside all functions. -/
def Place.fault? (p : Place) : Option ScopeError :=
  match p.part with
  | .declares x line =>
    if x ∈ Level.innermost p.around then some (.alreadyDeclared x line) else none
  | .reads x line _ initializes =>
    if initializes = some x ∧ p.around ≠ [] then some (.readInOwnInitializer x line) else none
  | .returns line =>
    if p.around.any Level.isFunction then none else some (.returnOutsideFunction line)
  | .assigns .. | .scope .. => none

/-- The first fault of an outline. -/
def Outline.fault? (around : List Level) (parts : List Outline) : Option ScopeError :=
  (allPlaces around parts).findSome? Place.fault?

theorem Level.declare_declare (ns ms : List String) (around : List Level) :
    Level.declare ms (Level.declare ns around) = Level.declare (ns ++ ms) around := by
  cases around <;> simp [Level.declare]

@[simp] theorem Level.declare_nil (around : List Level) : Level.declare [] around = around := by
  cases around <;> simp [Level.declare]

namespace Outline

@[simp] theorem declared_nil : declared [] = [] := rfl

@[simp] theorem declared_cons (part : Outline) (parts : List Outline) :
    declared (part :: parts) = part.names ++ declared parts := rfl

@[simp] theorem declared_reads (x : String) (line : Nat) (binding : Binding)
    (initializes : Option String) : declared [.reads x line binding initializes] = [] := rfl

@[simp] theorem declared_append (xs ys : List Outline) :
    declared (xs ++ ys) = declared xs ++ declared ys := List.flatMap_append

/-- **The places of two outlines in a row**: the second one comes after the names that the first one
declares. -/
theorem allPlaces_append (around : List Level) (xs ys : List Outline) :
    allPlaces around (xs ++ ys) =
      allPlaces around xs ++ allPlaces (Level.declare (declared xs) around) ys := by
  induction xs generalizing around with
  | nil => simp [allPlaces]
  | cons x xs ih => simp [allPlaces, ih, Level.declare_declare]

theorem allPlaces_scope (around : List Level) (isFunction : Bool) (parts : List Outline) :
    allPlaces around [.scope isFunction parts] = allPlaces (⟨isFunction, []⟩ :: around) parts := by
  simp [allPlaces, places]

theorem fault?_append (around : List Level) (xs ys : List Outline) :
    fault? around (xs ++ ys) =
      (fault? around xs).or (fault? (Level.declare (declared xs) around) ys) := by
  rw [fault?, allPlaces_append, List.findSome?_append]
  rfl

theorem fault?_declares (around : List Level) (x : String) (line : Nat) :
    fault? around [.declares x line] =
      if x ∈ Level.innermost around then some (.alreadyDeclared x line) else none := by
  simp [fault?, allPlaces, places, Place.fault?]

theorem fault?_reads (around : List Level) (x : String) (line : Nat) (binding : Binding)
    (initializes : Option String) :
    fault? around [.reads x line binding initializes] =
      if initializes = some x ∧ around ≠ [] then some (.readInOwnInitializer x line) else none := by
  simp [fault?, allPlaces, places, Place.fault?]

theorem fault?_returns (around : List Level) (line : Nat) :
    fault? around [.returns line] =
      if around.any Level.isFunction then none else some (.returnOutsideFunction line) := by
  simp [fault?, allPlaces, places, Place.fault?]

theorem fault?_scope (around : List Level) (isFunction : Bool) (parts : List Outline) :
    fault? around [.scope isFunction parts] = fault? (⟨isFunction, []⟩ :: around) parts := by
  rw [fault?, allPlaces_scope]
  rfl

end Outline

/-! ## References bound -/

/-- The name and the binding of a reference. -/
def Outline.reference? : Outline → Option (String × Binding)
  | .reads name _ binding _ | .assigns name binding => some (name, binding)
  | _ => none

/-- The innermost scope around a place that has declared a name. -/
def Level.find (around : List Level) (x : String) : Binding :=
  match around.findIdx? (fun l => decide (x ∈ l.names)) with
  | some distance => .enclosing distance
  | none => .toplevel

/-- The reference at a place, if there is one, is bound to the innermost scope that has declared its
name. -/
def Place.Bound (p : Place) : Prop :=
  ∀ x b, p.part.reference? = some (x, b) → b = Level.find p.around x

/-- An outline with all references bound, which declares the same names as another one. -/
structure Outline.Binds (around : List Level) (parts parts' : List Outline) : Prop where
  declared : Outline.declared parts' = Outline.declared parts
  bound : ∀ p ∈ Outline.allPlaces around parts', p.Bound

namespace Outline.Binds

variable {around : List Level} {xs xs' ys ys' : List Outline}

theorem nil : Binds around [] [] := ⟨rfl, nofun⟩

theorem append (h : Binds around xs xs')
    (h' : Binds (Level.declare (Outline.declared xs) around) ys ys') :
    Binds around (xs ++ ys) (xs' ++ ys') where
  declared := by rw [declared_append, declared_append, h.declared, h'.declared]
  bound := by
    rw [allPlaces_append, h.declared]
    exact List.forall_mem_append.mpr ⟨h.bound, h'.bound⟩

theorem scope {isFunction : Bool} (h : Binds (⟨isFunction, []⟩ :: around) xs xs') :
    Binds around [.scope isFunction xs] [.scope isFunction xs'] where
  declared := rfl
  bound := by
    rw [allPlaces_scope]
    exact h.bound

theorem declares (x : String) (line : Nat) :
    Binds around [.declares x line] [.declares x line] where
  declared := rfl
  bound := by simp [allPlaces, places, Place.Bound, reference?]

theorem declaresAll (names : List String) (line : Nat) :
    Binds around (names.map (Outline.declares · line)) (names.map (Outline.declares · line)) := by
  induction names generalizing around with
  | nil => exact nil
  | cons x names ih => exact (declares x line).append ih

theorem returns (line : Nat) : Binds around [.returns line] [.returns line] where
  declared := rfl
  bound := by simp [allPlaces, places, Place.Bound, reference?]

theorem reads (x : String) (line : Nat) (old : Binding) (initializes : Option String) :
    Binds around [.reads x line old initializes]
      [.reads x line (Level.find around x) initializes] where
  declared := rfl
  bound := by simp [allPlaces, places, Place.Bound, reference?]

theorem assigns (x : String) (old : Binding) :
    Binds around [.assigns x old] [.assigns x (Level.find around x)] where
  declared := rfl
  bound := by simp [allPlaces, places, Place.Bound, reference?]

end Outline.Binds

/-! ## Scopes of the walk -/

/-- A scope of the walk holds the names of a level; all but the pending one can be read. -/
def Scope.Shows (scope : Scope) (l : Level) (pending : Option String) : Prop :=
  ∀ x, scope.lookup x = if x ∈ l.names then some (decide (pending ≠ some x)) else none

/-- The open scopes of the walk hold the names of the levels around a place, while `pending` is
being initialised in the innermost one. -/
inductive Scope.ShowAll : Option String → List Scope → List Level → Prop
  | toplevel {pending : Option String} : ShowAll pending [] []
  | inside {pending : Option String} {scope : Scope} {l : Level} {chain : List Scope}
      {around : List Level} (inner : scope.Shows l pending) (outer : ShowAll none chain around) :
    ShowAll pending (scope :: chain) (l :: around)

/-- The scopes of the walk at a place, while `pending` is being initialised. -/
structure Scopes.Tracks (sc : Scopes) (around : List Level) (pending : Option String) : Prop where
  chain : Scope.ShowAll pending sc.chain around
  functions : sc.functions = around.countP Level.isFunction
  pending : ∀ x ∈ pending, around ≠ [] → x ∈ Level.innermost around

section Tracks

variable {sc : Scopes} {around : List Level} {pending : Option String} {x : String} {line : Nat}

theorem Scope.Shows.isSome_lookup {scope : Scope} {l : Level} (h : scope.Shows l pending)
    (x : String) : (scope.lookup x).isSome = decide (x ∈ l.names) := by
  rw [h x]
  split_ifs with hx <;> simp [hx]

theorem Scope.ShowAll.findIdx? {chain : List Scope} (h : ShowAll pending chain around)
    (x : String) :
    chain.findIdx? (fun scope => (scope.lookup x).isSome) =
      around.findIdx? (fun l => decide (x ∈ l.names)) := by
  induction h with
  | toplevel => rfl
  | inside inner _ ih => rw [List.findIdx?_cons, List.findIdx?_cons, inner.isSome_lookup, ih]

/-- **The walk finds names where the levels have them.** -/
theorem Scopes.Tracks.find (h : sc.Tracks around pending) (x : String) :
    sc.find x = Level.find around x := by
  unfold Scopes.find Level.find
  cases hfound : around.findIdx? (fun l => decide (x ∈ l.names)) <;>
    simp only [h.chain.findIdx?, hfound]

theorem Scopes.Tracks.outermost : Scopes.outermost.Tracks [] none := ⟨.toplevel, rfl, nofun⟩

theorem Scopes.Tracks.push (h : sc.Tracks around none) :
    sc.push.Tracks (⟨false, []⟩ :: around) none where
  chain := .inside (fun _ => rfl) h.chain
  functions := by simpa [Scopes.push] using h.functions
  pending := nofun

theorem Scopes.Tracks.enterFunction (h : sc.Tracks around none) :
    sc.enterFunction.push.Tracks (⟨true, []⟩ :: around) none where
  chain := .inside (fun _ => rfl) h.chain
  functions := by simpa [Scopes.push, Scopes.enterFunction] using h.functions
  pending := nofun

theorem Scopes.Tracks.pop {names : List String} (h : sc.Tracks (⟨false, names⟩ :: around) none) :
    sc.pop.Tracks around none := by
  obtain ⟨chain, functions⟩ := sc
  cases h.chain with
  | inside _ outer => exact ⟨outer, by simpa [Scopes.pop] using h.functions, nofun⟩

theorem Scopes.Tracks.leaveFunction {names : List String}
    (h : sc.Tracks (⟨true, names⟩ :: around) none) : sc.pop.leaveFunction.Tracks around none := by
  obtain ⟨chain, functions⟩ := sc
  have hfunctions : functions = around.countP Level.isFunction + 1 := by simpa using h.functions
  cases h.chain with
  | inside _ outer => exact ⟨outer, by simp [Scopes.leaveFunction, Scopes.pop, hfunctions], nofun⟩

theorem Scope.lookup_filter_ne {y : String} (h : y ≠ x) (scope : Scope) :
    (scope.filter (·.1 != x)).lookup y = scope.lookup y := by
  induction scope with
  | nil => rfl
  | cons b scope ih =>
    obtain ⟨z, readable⟩ := b
    by_cases hz : z = x
    · have hb : (y == z) = false := beq_eq_false_iff_ne.mpr (hz ▸ h)
      simp only [List.lookup_cons, hb]
      simpa [hz] using ih
    · by_cases hyz : y = z <;> simp [hz, hyz, List.lookup_cons, ih]

theorem Scopes.Tracks.define (h : sc.Tracks around (some x)) :
    (sc.define x).Tracks around none := by
  obtain ⟨chain, functions⟩ := sc
  cases h.chain with
  | toplevel => exact ⟨.toplevel, h.functions, nofun⟩
  | @inside _ scope l chain around inner outer =>
    have hmem : x ∈ l.names := h.pending x rfl (List.cons_ne_nil l around)
    refine ⟨.inside (fun y => ?_) outer, h.functions, nofun⟩
    by_cases hyx : y = x
    · simp [hyx, hmem]
    · have hb : (y == x) = false := beq_eq_false_iff_ne.mpr hyx
      rw [List.lookup_cons, hb, Scope.lookup_filter_ne hyx, inner y]
      simp [Ne.symm hyx]

/-- **A declaration** fails if the innermost scope has the name already. -/
theorem Scopes.Tracks.declare (h : sc.Tracks around none) (x : String) (line : Nat) :
    if x ∈ Level.innermost around then sc.declare x line = .error (.alreadyDeclared x line)
    else ∃ sc', sc.declare x line = .ok sc' ∧ sc'.Tracks (Level.declare [x] around) (some x) := by
  obtain ⟨chain, functions⟩ := sc
  cases h.chain with
  | toplevel => exact ⟨_, rfl, .toplevel, h.functions, fun _ _ hne => absurd rfl hne⟩
  | @inside _ scope l chain around inner outer =>
    have hlookup := inner.isSome_lookup x
    change if x ∈ l.names then _ else _
    split_ifs with hx
    · simp [Scopes.declare, hlookup, hx]
    · refine ⟨⟨((x, false) :: scope) :: chain, functions⟩, by simp [Scopes.declare, hlookup, hx],
        .inside (fun y => ?_) outer, h.functions, ?_⟩
      · by_cases hyx : y = x
        · simp [hyx]
        · have hb : (y == x) = false := beq_eq_false_iff_ne.mpr hyx
          rw [List.lookup_cons, hb, inner y]
          simp [hyx, Ne.symm hyx]
      · rintro _ ⟨⟩ -
        exact List.mem_append_right _ (List.mem_singleton_self x)

/-- **A read** fails if the name is being initialised in the innermost scope. -/
theorem Scopes.Tracks.read (h : sc.Tracks around pending) (x : String) (line : Nat) :
    sc.read x line =
      if pending = some x ∧ around ≠ [] then .error (.readInOwnInitializer x line) else .ok sc := by
  obtain ⟨chain, functions⟩ := sc
  cases h.chain with
  | toplevel => simp [Scopes.read]
  | @inside _ scope l chain around inner outer =>
    have hlookup := inner x
    by_cases hpending : pending = some x
    · have hmem : x ∈ l.names := h.pending x hpending (List.cons_ne_nil l around)
      simp [Scopes.read, hlookup, hmem, hpending]
    · by_cases hmem : x ∈ l.names <;> simp [Scopes.read, hlookup, hmem, hpending]

/-- **A return** fails outside all functions. -/
theorem Scopes.Tracks.leave (h : sc.Tracks around pending) (line : Nat) :
    sc.leave line =
      if around.any Level.isFunction then .ok sc else .error (.returnOutsideFunction line) := by
  have hzero : sc.functions = 0 ↔ ¬ around.any Level.isFunction := by
    simp [h.functions, List.countP_eq_zero]
  rw [Scopes.leave]
  split_ifs with h₁ h₂ h₂
  · exact absurd h₂ (hzero.mp h₁)
  · rfl
  · rfl
  · exact absurd (hzero.mpr h₂) h₁

end Tracks

/-! ## Walks along an outline -/

namespace Walk

variable {α β : Type} {around : List Level} {parts xs ys : List Outline}
  {pending pending' pending'' : Option String} {Q : α → Prop} {R : β → Prop}

/-- **A walk follows an outline**: from the scopes around a place it fails with the first fault of
the outline. If there is none then it succeeds, declares what the outline declares, and makes
something with the property `Q`. -/
def Follows (w : Walk α) (around : List Level) (parts : List Outline)
    (pending pending' : Option String) (Q : α → Prop) : Prop :=
  ∀ sc : Scopes, sc.Tracks around pending →
    match Outline.fault? around parts with
    | some e => (w.run (.ok sc)).2 = .error e
    | none => ∃ a sc', Gives w sc a sc' ∧
        sc'.Tracks (Level.declare (Outline.declared parts) around) pending' ∧ Q a

/-- **Walks compose**: one that follows an outline, and then one that follows another outline. -/
theorem Follows.bind {w : Walk α} {f : α → Walk β} [∀ a, Sticky (f a)]
    (hw : w.Follows around xs pending pending' Q)
    (hf : ∀ a, Q a → (f a).Follows (Level.declare (Outline.declared xs) around) ys pending'
      pending'' R) :
    (w >>= f).Follows around (xs ++ ys) pending pending'' R := by
  intro sc htracks
  have hrun : (w >>= f).run (.ok sc) = (f (w.run (.ok sc)).1).run (w.run (.ok sc)).2 := rfl
  specialize hw sc htracks
  rw [Outline.fault?_append]
  cases hx : Outline.fault? around xs with
  | some e =>
    -- the second walk leaves the error of the first as it is
    simp only [hx] at hw
    rw [Option.some_or, hrun, hw]
    exact Sticky.error e
  | none =>
    simp only [hx] at hw
    obtain ⟨a, mid, hgives, hmid, hq⟩ := hw
    specialize hf a hq mid hmid
    rw [Option.none_or]
    rw [Gives] at hgives
    simp only [Gives, hrun, hgives, Outline.declared_append, ← Level.declare_declare]
    exact hf

theorem Follows.andThen {w : Walk α} {f : α → Walk β} [∀ a, Sticky (f a)]
    (hw : w.Follows around parts pending pending' Q)
    (hf : ∀ a, Q a → (f a).Follows (Level.declare (Outline.declared parts) around) [] pending'
      pending'' R) :
    (w >>= f).Follows around parts pending pending'' R := by
  have h := hw.bind hf
  rwa [List.append_nil] at h

theorem follows_pure {a : α} (h : Q a) : (pure a : Walk α).Follows around [] pending pending Q := by
  intro sc htracks
  refine ⟨a, sc, rfl, ?_, h⟩
  rwa [Outline.declared_nil, Level.declare_nil]

theorem Follows.map {w : Walk α} {f : α → β} (hw : w.Follows around parts pending pending' Q)
    (hf : ∀ a, Q a → R (f a)) :
    (w >>= fun a => pure (f a)).Follows around parts pending pending' R :=
  hw.andThen fun a ha => follows_pure (hf a ha)

theorem follows_bindingOf (x : String) (old : Binding) (hfault : Outline.fault? around parts = none)
    (hdeclared : Outline.declared parts = []) :
    (bindingOf x old).Follows around parts pending pending (· = Level.find around x) := by
  intro sc htracks
  rw [hfault, hdeclared, Level.declare_nil]
  exact ⟨_, sc, gives_bindingOf.mpr ⟨rfl, rfl⟩, htracks, htracks.find x⟩

theorem follows_read (x : String) (line : Nat) (old : Binding) (initializes : Option String) :
    (check (·.read x line)).Follows around [.reads x line old initializes] initializes initializes
      fun _ => True := by
  intro sc htracks
  have hread := htracks.read x line
  rw [Outline.fault?_reads]
  split_ifs at hread ⊢
  · exact hread
  · refine ⟨(), sc, gives_check.mpr hread, ?_, trivial⟩
    simpa [Outline.names] using htracks

theorem follows_leave (line : Nat) :
    (check (·.leave line)).Follows around [.returns line] none none fun _ => True := by
  intro sc htracks
  have hleave := htracks.leave line
  rw [Outline.fault?_returns]
  split_ifs at hleave ⊢
  · refine ⟨(), sc, gives_check.mpr hleave, ?_, trivial⟩
    simpa [Outline.names] using htracks
  · exact hleave

theorem follows_declare (x : String) (line : Nat) :
    (check (·.declare x line)).Follows around [.declares x line] none (some x) fun _ => True := by
  intro sc htracks
  have hdeclare := htracks.declare x line
  rw [Outline.fault?_declares]
  split_ifs at hdeclare ⊢
  · exact hdeclare
  · obtain ⟨sc', hok, htracks'⟩ := hdeclare
    exact ⟨(), sc', gives_check.mpr hok, htracks', trivial⟩

theorem follows_define (x : String) :
    (change (·.define x)).Follows around [] (some x) none fun _ => True := by
  intro sc htracks
  refine ⟨(), sc.define x, gives_change.mpr rfl, ?_, trivial⟩
  rw [Outline.declared_nil, Level.declare_nil]
  exact htracks.define

theorem follows_introduce (x : String) (line : Nat) :
    (introduce x line).Follows around [.declares x line] none none fun _ => True :=
  (follows_declare x line).andThen fun _ _ => follows_define x

theorem follows_introduceAll (line : Nat) (names : List String) :
    (introduceAll line names).Follows around (names.map (Outline.declares · line)) none none
      fun _ => True := by
  induction names generalizing around with
  | nil => exact follows_pure trivial
  | cons x names ih => exact (follows_introduce x line).bind fun _ _ => ih

/-- **A scope** is entered, walked through and left. -/
theorem Follows.scope {w : Walk α} {f : α → β} [Sticky w] {isFunction : Bool}
    {enter leave : Scopes → Scopes}
    (henter : ∀ {sc : Scopes} {around : List Level}, sc.Tracks around none →
      (enter sc).Tracks (⟨isFunction, []⟩ :: around) none)
    (hleave : ∀ {sc : Scopes} {around : List Level} {names : List String},
      sc.Tracks (⟨isFunction, names⟩ :: around) none → (leave sc).Tracks around none)
    (hw : w.Follows (⟨isFunction, []⟩ :: around) parts none none Q) (hf : ∀ a, Q a → R (f a)) :
    (do change enter; let a ← w; change leave; return f a : Walk β).Follows around
      [.scope isFunction parts] none none R := by
  intro sc htracks
  specialize hw (enter sc) (henter htracks)
  have hrun : (do change enter; let a ← w; change leave; return f a : Walk β).run (.ok sc) =
      (f (w.run (.ok (enter sc))).1, (w.run (.ok (enter sc))).2.map leave) := rfl
  rw [Outline.fault?_scope]
  cases hfault : Outline.fault? (⟨isFunction, []⟩ :: around) parts with
  | some e =>
    simp only [hfault] at hw
    simp only [hrun, hw]
    rfl
  | none =>
    simp only [hfault] at hw
    obtain ⟨a, sc', hgives, hmid, ha⟩ := hw
    rw [Gives] at hgives
    refine ⟨f a, leave sc', ?_, ?_, hf a ha⟩
    · rw [Gives, hrun, hgives]
      rfl
    · simpa [Outline.names] using hleave hmid

end Walk

/-! ## Trees -/

open Walk

section Expressions

/-- What a walk over an expression makes. -/
structure Expr.Bound (around : List Level) (initializes : Option String) (e e' : Expr) : Prop where
  unbound : e'.unbound = e.unbound
  binds : Outline.Binds around (e.outline initializes) (e'.outline initializes)

structure Expr.AllBound (around : List Level) (initializes : Option String) (es es' : List Expr) :
    Prop where
  unbound : Expr.allUnbound es' = Expr.allUnbound es
  binds : Outline.Binds around (Expr.allOutline initializes es) (Expr.allOutline initializes es')

mutual

/-- **Scope analysis follows the outline of an expression.** -/
theorem Expr.follows (initializes : Option String) : ∀ (e : Expr) {around : List Level},
    e.resolve.Follows around (e.outline initializes) initializes initializes
      (e.Bound around initializes)
  | .literal .., around => by
    rw [Expr.resolve, Expr.outline]
    exact follows_pure ⟨rfl, .nil⟩
  | .var line x old, around => by
    rw [Expr.resolve, Expr.outline]
    refine (follows_read x line old initializes).andThen fun _ _ => ?_
    refine (follows_bindingOf x old rfl rfl).map ?_
    rintro _ rfl
    rw [Outline.declared_reads, Level.declare_nil]
    exact ⟨rfl, .reads x line old initializes⟩
  | .assign line x old value, around => by
    rw [Expr.resolve, Expr.outline]
    refine (value.follows initializes).bind fun value' hvalue =>
      (follows_bindingOf x old rfl rfl).map ?_
    rintro _ rfl
    exact ⟨by rw [Expr.unbound, Expr.unbound, hvalue.unbound], hvalue.binds.append (.assigns x old)⟩
  | .get _ _ e, around | .group _ e, around | .unary _ _ e, around => by
    rw [Expr.resolve, Expr.outline]
    exact (e.follows initializes).map fun e' he =>
      ⟨by rw [Expr.unbound, Expr.unbound, he.unbound], he.binds⟩
  | .binary _ _ l r, around | .logical _ _ l r, around => by
    rw [Expr.resolve, Expr.outline]
    exact (l.follows initializes).bind fun l' hl => (r.follows initializes).map fun r' hr =>
      ⟨by rw [Expr.unbound, Expr.unbound, hl.unbound, hr.unbound], hl.binds.append hr.binds⟩
  | .set _ _ object value, around => by
    rw [Expr.resolve, Expr.outline]
    exact (value.follows initializes).bind fun v hv => (object.follows initializes).map fun o ho =>
      ⟨by rw [Expr.unbound, Expr.unbound, ho.unbound, hv.unbound], hv.binds.append ho.binds⟩
  | .call _ callee arguments, around => by
    rw [Expr.resolve, Expr.outline]
    exact (callee.follows initializes).bind fun c hc =>
      (Expr.followsAll initializes arguments).map fun as has =>
        ⟨by rw [Expr.unbound, Expr.unbound, hc.unbound, has.unbound], hc.binds.append has.binds⟩

theorem Expr.followsAll (initializes : Option String) : ∀ (es : List Expr) {around : List Level},
    (Expr.resolveAll es).Follows around (Expr.allOutline initializes es) initializes initializes
      (Expr.AllBound around initializes es)
  | [], around => by
    rw [Expr.resolveAll, Expr.allOutline]
    exact follows_pure ⟨rfl, .nil⟩
  | e :: es, around => by
    rw [Expr.resolveAll, Expr.allOutline]
    exact (e.follows initializes).bind fun e' he =>
      (Expr.followsAll initializes es).map fun es' hes =>
        ⟨by rw [Expr.allUnbound, Expr.allUnbound, he.unbound, hes.unbound],
          he.binds.append hes.binds⟩

end

theorem Expr.followsOption (initializes : Option String) (e : Option Expr) {around : List Level} :
    (Expr.resolveOption e).Follows around (Expr.outlineOption initializes e) initializes initializes
      fun e' => e'.map Expr.unbound = e.map Expr.unbound ∧ Outline.Binds around
        (Expr.outlineOption initializes e) (Expr.outlineOption initializes e') := by
  cases e with
  | none => exact follows_pure ⟨rfl, .nil⟩
  | some e => exact (e.follows initializes).map fun e' he => ⟨congrArg some he.unbound, he.binds⟩

end Expressions

section Statements

/-- What a walk over a statement makes. -/
structure Stmt.Bound (around : List Level) (s s' : Stmt) : Prop where
  unbound : s'.unbound = s.unbound
  binds : Outline.Binds around s.outline s'.outline

structure Stmt.AllBound (around : List Level) (ss ss' : List Stmt) : Prop where
  unbound : Stmt.allUnbound ss' = Stmt.allUnbound ss
  binds : Outline.Binds around (Stmt.allOutline ss) (Stmt.allOutline ss')

/-- The walk over a function, with its parameters as a part of its body. -/
theorem Stmt.resolve_function (line : Nat) (name : String) (params : List String)
    (body : List Stmt) :
    Stmt.resolve (.function line name params body) = (do
      introduce name line
      change (·.enterFunction.push)
      let body ← (do introduceAll line params; Stmt.resolveAll body)
      change (·.pop.leaveFunction)
      return .function line name params body) := by
  rw [Stmt.resolve]
  simp only [bind_assoc]

/-- The walk over a loop, with its variable as a part of its body. -/
theorem Stmt.resolve_forLoop (line : Nat) (name : String) (iterable : Expr) (body : Stmt) :
    Stmt.resolve (.forLoop line name iterable body) = (do
      let iterable ← iterable.resolve
      change Scopes.push
      let body ← (do introduce name line; body.resolve)
      change Scopes.pop
      return .forLoop line name iterable body) := by
  rw [Stmt.resolve]
  simp only [bind_assoc]

mutual

/-- **Scope analysis follows the outline of a statement.** -/
theorem Stmt.follows : ∀ (s : Stmt) {around : List Level},
    s.resolve.Follows around s.outline none none (s.Bound around)
  | .block line body, around => by
    rw [Stmt.resolve, Stmt.outline]
    exact .scope .push .pop (Stmt.followsAll body) fun body' hbody =>
      ⟨by rw [Stmt.unbound, Stmt.unbound, hbody.unbound], hbody.binds.scope⟩
  | .expression line e, around => by
    rw [Stmt.resolve, Stmt.outline]
    exact (e.follows none).map fun e' he =>
      ⟨by rw [Stmt.unbound, Stmt.unbound, he.unbound], he.binds⟩
  | .function line name params body, around => by
    rw [Stmt.resolve_function, Stmt.outline]
    refine (follows_introduce name line).bind fun _ _ =>
      .scope .enterFunction .leaveFunction
        ((follows_introduceAll line params).bind fun _ _ => Stmt.followsAll body)
        fun body' hbody => ?_
    refine ⟨by rw [Stmt.unbound, Stmt.unbound, hbody.unbound], ?_⟩
    exact (Outline.Binds.declares name line).append
      ((Outline.Binds.declaresAll params line).append hbody.binds).scope
  | .ifThen line c yes, around => by
    rw [Stmt.resolve, Stmt.outline]
    exact (c.follows none).bind fun c' hc => yes.follows.map fun yes' hyes =>
      ⟨by rw [Stmt.unbound, Stmt.unbound, hc.unbound, hyes.unbound], hc.binds.append hyes.binds⟩
  | .ifElse line c yes no, around => by
    rw [Stmt.resolve, Stmt.outline]
    exact (c.follows none).bind fun c' hc => yes.follows.bind fun yes' hyes =>
      no.follows.map fun no' hno =>
        ⟨by rw [Stmt.unbound, Stmt.unbound, hc.unbound, hyes.unbound, hno.unbound],
          hc.binds.append (hyes.binds.append hno.binds)⟩
  | .giveBack line value, around => by
    rw [Stmt.resolve, Stmt.outline]
    exact (follows_leave line).bind fun _ _ => (Expr.followsOption none value).map
      fun value' hvalue =>
        ⟨congrArg (Stmt.giveBack line) hvalue.1, (Outline.Binds.returns line).append hvalue.2⟩
  | .declare line name initial, around => by
    rw [Stmt.resolve, Stmt.outline]
    -- the name is declared while the initialiser is walked through, but cannot be read
    exact (follows_declare name line).bind fun _ _ =>
      (Expr.followsOption (some name) initial).andThen fun initial' hinitial =>
        (follows_define name).map fun _ _ =>
          ⟨congrArg (Stmt.declare line name) hinitial.1,
            (Outline.Binds.declares name line).append hinitial.2⟩
  | .whileLoop line c body, around => by
    rw [Stmt.resolve, Stmt.outline]
    exact (c.follows none).bind fun c' hc => body.follows.map fun body' hbody =>
      ⟨by rw [Stmt.unbound, Stmt.unbound, hc.unbound, hbody.unbound], hc.binds.append hbody.binds⟩
  | .forLoop line name e body, around => by
    rw [Stmt.resolve_forLoop, Stmt.outline]
    refine (e.follows none).bind fun e' he => .scope .push .pop
      ((follows_introduce name line).bind fun _ _ => body.follows) fun body' hbody => ?_
    refine ⟨by rw [Stmt.unbound, Stmt.unbound, he.unbound, hbody.unbound], ?_⟩
    exact he.binds.append ((Outline.Binds.declares name line).append hbody.binds).scope

theorem Stmt.followsAll : ∀ (ss : List Stmt) {around : List Level},
    (Stmt.resolveAll ss).Follows around (Stmt.allOutline ss) none none (Stmt.AllBound around ss)
  | [], around => by
    rw [Stmt.resolveAll, Stmt.allOutline]
    exact follows_pure ⟨rfl, .nil⟩
  | s :: ss, around => by
    rw [Stmt.resolveAll, Stmt.allOutline]
    exact s.follows.bind fun s' hs => (Stmt.followsAll ss).map fun ss' hss =>
      ⟨by rw [Stmt.allUnbound, Stmt.allUnbound, hs.unbound, hss.unbound],
        hs.binds.append hss.binds⟩

end

end Statements

/-- **The walk over a program**: it fails with the first fault of the program's outline. If there is
none then every reference is bound. -/
theorem resolve_follows (ss : List Stmt) :
    (resolve ss).2 = Outline.fault? [] (Stmt.allOutline ss) ∧
      ((resolve ss).2 = none → Stmt.AllBound [] ss (resolve ss).1) := by
  have h := Stmt.followsAll ss .outermost .outermost
  unfold resolve
  cases hfault : Outline.fault? [] (Stmt.allOutline ss) with
  | some e =>
    simp only [hfault] at h
    rcases hrun : (Stmt.resolveAll ss).run (.ok .outermost) with ⟨ss', e' | sc'⟩ <;>
      simp_all
  | none =>
    simp only [hfault, Gives] at h
    obtain ⟨ss', sc', hrun, -, hbound⟩ := h
    rw [hrun]
    exact ⟨rfl, fun _ => hbound⟩

end Scriptlet
