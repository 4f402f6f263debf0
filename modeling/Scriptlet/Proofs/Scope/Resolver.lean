import Scriptlet.Proofs.Scope.Outline

/-!
# A resolver and its memory

Scope analysis as something that is used for one program after another. A resolver holds the scopes
that are open. It passes over a program from reference to reference, writes the binding of each, and
stops at the first error; on its way out it closes what it has opened, whether there was an error or
not. The walk of scope analysis rebuilds the tree that such a pass writes into.

* `Pass`, `Trail`: a pass over a part of a program, and what it leaves behind.
* `Expr.pass`, `Stmt.pass`: the pass over a tree. It never looks at the bindings that it finds there
  (`Stmt.passAll_unbound`).
* `Pass.Tidy`: **a pass leaves the scopes around it as they were**, also if it fails.
* `Walk.Writes`: **a walk makes the tree that a pass writes into**: references that are met before
  an error are bound, all others stay as they are. `Walk.Writes.bind` composes walks and passes.
* `Stmt.writesAll`: scope analysis is such a walk, for every program.
* `Resolver.scopes_pass`, `Resolver.resolve_eq_pass`: a resolver is as good as new after a program,
  and writes what scope analysis makes.
-/

namespace Scriptlet

/-! ## Passes -/

/-- A reference: the name of a variable and the binding written to it. -/
abbrev Reference : Type := String × Binding

/-- **What a pass leaves behind**: the scopes of the resolver, the references bound one after
another, and the error that stopped it if there was one. -/
structure Trail where
  scopes : Scopes
  written : List Reference
  error? : Option ScopeError

/-- A pass over a part of a program. -/
abbrev Pass : Type := Scopes → Trail

namespace Pass

def done : Pass := fun sc => ⟨sc, [], none⟩

/-- Changes the scopes, or fails and leaves them as they are. -/
def check (f : Scopes → Except ScopeError Scopes) : Pass := fun sc =>
  match f sc with
  | .ok sc' => ⟨sc', [], none⟩
  | .error e => ⟨sc, [], some e⟩

/-- Changes the scopes. -/
def change (f : Scopes → Scopes) : Pass := fun sc => ⟨f sc, [], none⟩

/-- Binds a reference. -/
def write (name : String) : Pass := fun sc => ⟨sc, [(name, sc.find name)], none⟩

/-- A pass, and then another one unless the first has failed. -/
def andThen (p q : Pass) : Pass := fun sc =>
  match p sc with
  | ⟨sc', written, some e⟩ => ⟨sc', written, some e⟩
  | ⟨sc', written, none⟩ => { q sc' with written := written ++ (q sc').written }

theorem andThen_of_error {p : Pass} {sc : Scopes} {e : ScopeError} (h : (p sc).error? = some e)
    (q : Pass) : p.andThen q sc = p sc := by
  rcases hp : p sc with ⟨sc', written, error?⟩
  rw [hp] at h
  cases h
  rw [andThen, hp]

theorem andThen_of_done {p : Pass} {sc : Scopes} (h : (p sc).error? = none) (q : Pass) :
    p.andThen q sc =
      { q (p sc).scopes with written := (p sc).written ++ (q (p sc).scopes).written } := by
  rcases hp : p sc with ⟨sc', written, error?⟩
  rw [hp] at h
  cases h
  rw [andThen, hp]

/-- A pass through a scope, which is closed again also if the pass fails. -/
def inside (enter leave : Scopes → Scopes) (p : Pass) : Pass := fun sc =>
  { p (enter sc) with scopes := leave (p (enter sc)).scopes }

/-- Declares a name that can be read at once. -/
def introduce (name : String) (line : Nat) : Pass :=
  (check (·.declare name line)).andThen (change (·.define name))

/-- Declares parameters one after another. -/
def introduceAll (line : Nat) : List String → Pass
  | [] => done
  | name :: names => (introduce name line).andThen (introduceAll line names)

end Pass

mutual

/-- The pass over an expression. What is assigned comes before what it is assigned to. -/
def Expr.pass : Expr → Pass
  | .literal .. => .done
  | .var line name _ => (Pass.check (·.read name line)).andThen (.write name)
  | .assign _ name _ value => value.pass.andThen (.write name)
  | .get _ _ e | .group _ e | .unary _ _ e => e.pass
  | .binary _ _ l r | .logical _ _ l r => l.pass.andThen r.pass
  | .set _ _ object value => value.pass.andThen object.pass
  | .call _ callee arguments => callee.pass.andThen (Expr.passAll arguments)

def Expr.passAll : List Expr → Pass
  | [] => .done
  | e :: es => e.pass.andThen (Expr.passAll es)

end

def Expr.passOption : Option Expr → Pass
  | none => .done
  | some e => e.pass

mutual

/-- The pass over a statement. -/
def Stmt.pass : Stmt → Pass
  | .block _ body => .inside Scopes.push Scopes.pop (Stmt.passAll body)
  | .expression _ e => e.pass
  | .function line name params body =>
    (Pass.introduce name line).andThen (.inside (·.enterFunction.push) (·.pop.leaveFunction)
      ((Pass.introduceAll line params).andThen (Stmt.passAll body)))
  | .ifThen _ c yes => c.pass.andThen yes.pass
  | .ifElse _ c yes no => c.pass.andThen (yes.pass.andThen no.pass)
  | .giveBack line value => (Pass.check (·.leave line)).andThen (Expr.passOption value)
  | .declare line name initial =>
    (Pass.check (·.declare name line)).andThen
      ((Expr.passOption initial).andThen (.change (·.define name)))
  | .whileLoop _ c body => c.pass.andThen body.pass
  | .forLoop line name e body =>
    e.pass.andThen (.inside Scopes.push Scopes.pop ((Pass.introduce name line).andThen body.pass))

def Stmt.passAll : List Stmt → Pass
  | [] => .done
  | s :: ss => s.pass.andThen (Stmt.passAll ss)

end

/-- A resolver between two programs: the scopes that its last pass has left. -/
abbrev Resolver : Type := Scopes

/-- **The pass of a resolver over a program**, which starts by forgetting the scopes it holds. -/
def Resolver.pass (r : Resolver) (program : List Stmt) : Trail :=
  Stmt.passAll program { r with chain := [], functions := 0 }

/-! ## References in the order of a pass -/

mutual

/-- The references of an expression with their bindings, in the order of a pass. -/
def Expr.bindings : Expr → List Reference
  | .literal .. => []
  | .var _ name binding => [(name, binding)]
  | .assign _ name binding value => value.bindings ++ [(name, binding)]
  | .get _ _ e | .group _ e | .unary _ _ e => e.bindings
  | .binary _ _ l r | .logical _ _ l r => l.bindings ++ r.bindings
  | .set _ _ object value => value.bindings ++ object.bindings
  | .call _ callee arguments => callee.bindings ++ Expr.allBindings arguments

def Expr.allBindings : List Expr → List Reference
  | [] => []
  | e :: es => e.bindings ++ Expr.allBindings es

end

def Expr.bindingsOption : Option Expr → List Reference
  | none => []
  | some e => e.bindings

mutual

/-- The references of a statement with their bindings, in the order of a pass. -/
def Stmt.bindings : Stmt → List Reference
  | .block _ body | .function _ _ _ body => Stmt.allBindings body
  | .expression _ e => e.bindings
  | .ifThen _ c s | .whileLoop _ c s | .forLoop _ _ c s => c.bindings ++ s.bindings
  | .ifElse _ c yes no => c.bindings ++ (yes.bindings ++ no.bindings)
  | .giveBack _ value | .declare _ _ value => Expr.bindingsOption value

def Stmt.allBindings : List Stmt → List Reference
  | [] => []
  | s :: ss => s.bindings ++ Stmt.allBindings ss

end

/-! ## Passes do not look at bindings -/

mutual

theorem Expr.pass_unbound : ∀ e : Expr, e.unbound.pass = e.pass
  | .literal .. => rfl
  | .var .. => rfl
  | .assign _ _ _ e | .get _ _ e | .group _ e | .unary _ _ e => by
    rw [Expr.unbound, Expr.pass, Expr.pass, e.pass_unbound]
  | .binary _ _ l r | .logical _ _ l r | .set _ _ l r => by
    rw [Expr.unbound, Expr.pass, Expr.pass, l.pass_unbound, r.pass_unbound]
  | .call _ callee arguments => by
    rw [Expr.unbound, Expr.pass, Expr.pass, callee.pass_unbound, Expr.passAll_unbound arguments]

theorem Expr.passAll_unbound : ∀ es : List Expr,
    Expr.passAll (Expr.allUnbound es) = Expr.passAll es
  | [] => rfl
  | e :: es => by
    rw [Expr.allUnbound, Expr.passAll, Expr.passAll, e.pass_unbound, Expr.passAll_unbound es]

end

theorem Expr.passOption_unbound (e : Option Expr) :
    Expr.passOption (e.map Expr.unbound) = Expr.passOption e := by
  cases e with
  | none => rfl
  | some e => exact e.pass_unbound

mutual

theorem Stmt.pass_unbound : ∀ s : Stmt, s.unbound.pass = s.pass
  | .block _ body | .function _ _ _ body => by
    rw [Stmt.unbound, Stmt.pass, Stmt.pass, Stmt.passAll_unbound body]
  | .expression _ e => by rw [Stmt.unbound, Stmt.pass, Stmt.pass, e.pass_unbound]
  | .ifThen _ c s | .whileLoop _ c s | .forLoop _ _ c s => by
    rw [Stmt.unbound, Stmt.pass, Stmt.pass, c.pass_unbound, s.pass_unbound]
  | .ifElse _ c yes no => by
    rw [Stmt.unbound, Stmt.pass, Stmt.pass, c.pass_unbound, yes.pass_unbound, no.pass_unbound]
  | .giveBack _ e | .declare _ _ e => by
    rw [Stmt.unbound, Stmt.pass, Stmt.pass, Expr.passOption_unbound]

/-- **A pass over a program does not depend on the bindings found there.** -/
theorem Stmt.passAll_unbound : ∀ ss : List Stmt,
    Stmt.passAll (Stmt.allUnbound ss) = Stmt.passAll ss
  | [] => rfl
  | s :: ss => by
    rw [Stmt.allUnbound, Stmt.passAll, Stmt.passAll, s.pass_unbound, Stmt.passAll_unbound ss]

end

/-! ## Passes close what they open -/

/-- The same scopes, but for the names in the innermost one. -/
structure Scopes.Alike (sc sc' : Scopes) : Prop where
  functions : sc'.functions = sc.functions
  length : sc'.chain.length = sc.chain.length
  outer : sc'.chain.tail = sc.chain.tail

theorem Scopes.Alike.refl (sc : Scopes) : sc.Alike sc := ⟨rfl, rfl, rfl⟩

theorem Scopes.Alike.trans {sc sc' sc'' : Scopes} (h : sc.Alike sc') (h' : sc'.Alike sc'') :
    sc.Alike sc'' where
  functions := h'.functions.trans h.functions
  length := h'.length.trans h.length
  outer := h'.outer.trans h.outer

theorem Scopes.alike_define (sc : Scopes) (name : String) : sc.Alike (sc.define name) := by
  obtain ⟨_ | ⟨scope, outer⟩, functions⟩ := sc <;> exact ⟨rfl, rfl, rfl⟩

theorem Scopes.alike_declare {sc sc' : Scopes} {name : String} {line : Nat}
    (h : sc.declare name line = .ok sc') : sc.Alike sc' := by
  obtain ⟨_ | ⟨scope, outer⟩, functions⟩ := sc
  · cases h
    exact .refl _
  · simp only [Scopes.declare] at h
    split_ifs at h
    cases h
    exact ⟨rfl, rfl, rfl⟩

theorem Scopes.alike_read {sc sc' : Scopes} {name : String} {line : Nat}
    (h : sc.read name line = .ok sc') : sc.Alike sc' := by
  unfold Scopes.read at h
  split at h
  · cases h
  · cases h
    exact .refl _

theorem Scopes.alike_leave {sc sc' : Scopes} {line : Nat} (h : sc.leave line = .ok sc') :
    sc.Alike sc' := by
  unfold Scopes.leave at h
  split_ifs at h
  cases h
  exact .refl _

namespace Pass

variable {p q : Pass}

/-- **A pass leaves the scopes around it as they were**, whether it fails or not. -/
def Tidy (p : Pass) : Prop := ∀ sc : Scopes, sc.Alike (p sc).scopes

theorem tidy_done : done.Tidy := fun sc => .refl sc

theorem tidy_write (name : String) : (write name).Tidy := fun sc => .refl sc

theorem tidy_change_define (name : String) : (change (·.define name)).Tidy :=
  fun sc => sc.alike_define name

theorem tidy_check {f : Scopes → Except ScopeError Scopes}
    (h : ∀ {sc sc'}, f sc = .ok sc' → sc.Alike sc') : (check f).Tidy := by
  intro sc
  unfold check
  split
  · exact h ‹_›
  · exact .refl sc

theorem Tidy.andThen (hp : p.Tidy) (hq : q.Tidy) : (p.andThen q).Tidy := by
  intro sc
  cases herror : (p sc).error? with
  | some e =>
    rw [andThen_of_error herror]
    exact hp sc
  | none =>
    rw [andThen_of_done herror]
    exact (hp sc).trans (hq _)

theorem Tidy.inside {enter leave : Scopes → Scopes} (hp : p.Tidy)
    (hleave : ∀ {sc sc' : Scopes}, (enter sc).Alike sc' → leave sc' = sc) :
    (inside enter leave p).Tidy := by
  intro sc
  have hback : leave (p (enter sc)).scopes = sc := hleave (hp (enter sc))
  change sc.Alike (leave (p (enter sc)).scopes)
  rw [hback]
  exact .refl sc

theorem tidy_introduce (name : String) (line : Nat) : (introduce name line).Tidy :=
  (tidy_check Scopes.alike_declare).andThen (tidy_change_define name)

theorem tidy_introduceAll (line : Nat) (names : List String) :
    (introduceAll line names).Tidy := by
  induction names with
  | nil => exact tidy_done
  | cons name names ih => exact (tidy_introduce name line).andThen ih

theorem pop_of_alike {sc sc' : Scopes} (h : sc.push.Alike sc') : sc'.pop = sc := by
  obtain ⟨hfunctions, -, houter⟩ := h
  simp only [Scopes.push] at hfunctions houter
  simp only [Scopes.pop, hfunctions, houter, List.tail_cons]

theorem leaveFunction_of_alike {sc sc' : Scopes} (h : sc.enterFunction.push.Alike sc') :
    sc'.pop.leaveFunction = sc := by
  rw [pop_of_alike h]
  rfl

end Pass

open Pass in
mutual

theorem Expr.tidy_pass : ∀ e : Expr, e.pass.Tidy
  | .literal .. => by
    rw [Expr.pass]
    exact tidy_done
  | .var .. => by
    rw [Expr.pass]
    exact (tidy_check Scopes.alike_read).andThen (tidy_write _)
  | .assign _ _ _ e => by
    rw [Expr.pass]
    exact e.tidy_pass.andThen (tidy_write _)
  | .get _ _ e | .group _ e | .unary _ _ e => by
    rw [Expr.pass]
    exact e.tidy_pass
  | .binary _ _ l r | .logical _ _ l r | .set _ _ r l => by
    rw [Expr.pass]
    exact l.tidy_pass.andThen r.tidy_pass
  | .call _ callee arguments => by
    rw [Expr.pass]
    exact callee.tidy_pass.andThen (Expr.tidy_passAll arguments)

theorem Expr.tidy_passAll : ∀ es : List Expr, (Expr.passAll es).Tidy
  | [] => by
    rw [Expr.passAll]
    exact tidy_done
  | e :: es => by
    rw [Expr.passAll]
    exact e.tidy_pass.andThen (Expr.tidy_passAll es)

end

theorem Expr.tidy_passOption (e : Option Expr) : (Expr.passOption e).Tidy := by
  cases e with
  | none => exact Pass.tidy_done
  | some e => exact e.tidy_pass

open Pass in
mutual

theorem Stmt.tidy_pass : ∀ s : Stmt, s.pass.Tidy
  | .block _ body => by
    rw [Stmt.pass]
    exact (Stmt.tidy_passAll body).inside pop_of_alike
  | .expression _ e => by
    rw [Stmt.pass]
    exact e.tidy_pass
  | .function line name params body => by
    rw [Stmt.pass]
    exact (tidy_introduce name line).andThen
      (((tidy_introduceAll line params).andThen (Stmt.tidy_passAll body)).inside
        leaveFunction_of_alike)
  | .ifThen _ c s | .whileLoop _ c s => by
    rw [Stmt.pass]
    exact c.tidy_pass.andThen s.tidy_pass
  | .ifElse _ c yes no => by
    rw [Stmt.pass]
    exact c.tidy_pass.andThen (yes.tidy_pass.andThen no.tidy_pass)
  | .giveBack _ e => by
    rw [Stmt.pass]
    exact (tidy_check Scopes.alike_leave).andThen (Expr.tidy_passOption e)
  | .declare _ name e => by
    rw [Stmt.pass]
    exact (tidy_check Scopes.alike_declare).andThen
      ((Expr.tidy_passOption e).andThen (tidy_change_define name))
  | .forLoop line name e body => by
    rw [Stmt.pass]
    exact e.tidy_pass.andThen
      (((tidy_introduce name line).andThen body.tidy_pass).inside pop_of_alike)

theorem Stmt.tidy_passAll : ∀ ss : List Stmt, (Stmt.passAll ss).Tidy
  | [] => by
    rw [Stmt.passAll]
    exact tidy_done
  | s :: ss => by
    rw [Stmt.passAll]
    exact s.tidy_pass.andThen (Stmt.tidy_passAll ss)

end

theorem Scopes.eq_outermost_of_alike {sc : Scopes} (h : Scopes.outermost.Alike sc) :
    sc = .outermost := by
  obtain ⟨chain, functions⟩ := sc
  obtain rfl : chain = [] := List.eq_nil_of_length_eq_zero h.length
  obtain rfl : functions = 0 := h.functions
  rfl

/-- **After a program a resolver is as good as new**, also if the program has an error in it. -/
theorem Resolver.scopes_pass (r : Resolver) (ss : List Stmt) :
    (r.pass ss).scopes = .outermost :=
  Scopes.eq_outermost_of_alike (Stmt.tidy_passAll ss .outermost)

/-! ## Walks write what passes bind -/

namespace Trail

/-- How the walk of scope analysis ends. -/
def outcome (t : Trail) : Except ScopeError Scopes :=
  match t.error? with
  | some e => .error e
  | none => .ok t.scopes

/-- References after the trail has been written over the first of them. -/
def overwrite (t : Trail) (old : List Reference) : List Reference :=
  t.written ++ old.drop t.written.length

/-- There is a reference for each binding of the trail, and for no more unless it ends in an
error. -/
structure Fits (t : Trail) (old : List Reference) : Prop where
  le : t.written.length ≤ old.length
  eq : t.error? = none → t.written.length = old.length

theorem Fits.overwrite_eq {t : Trail} {old : List Reference} (h : t.Fits old)
    (hnone : t.error? = none) : t.overwrite old = t.written := by
  rw [overwrite, h.eq hnone, List.drop_length, List.append_nil]

theorem Fits.overwrite_append {t : Trail} {old : List Reference} (h : t.Fits old)
    (more : List Reference) : t.overwrite (old ++ more) = t.overwrite old ++ more := by
  rw [overwrite, overwrite, List.drop_append_of_le_length h.le, List.append_assoc]

theorem Fits.length_overwrite {t : Trail} {old : List Reference} (h : t.Fits old) :
    (t.overwrite old).length = old.length := by
  have hle := h.le
  rw [overwrite, List.length_append, List.length_drop]
  omega

theorem overwrite_overwrite (t : Trail) (old : List Reference) :
    t.overwrite (t.overwrite old) = t.overwrite old := by
  rw [overwrite, overwrite, List.drop_left]

end Trail

namespace Walk

variable {α β : Type} {Q : α → List Reference → Prop} {R : β → List Reference → Prop}
  {p q : Pass} {old more : List Reference}

/-- **A walk makes what a pass writes**: where `old` are the references of the tree, it makes
something that satisfies `Q` with the references that the pass has written over the first of them,
and ends as the pass does. After an error it changes no reference. -/
structure Writes (w : Walk α) (p : Pass) (old : List Reference) (Q : α → List Reference → Prop) :
    Prop where
  idle (e : ScopeError) : ∃ a, w.run (.error e) = (a, .error e) ∧ Q a old
  fits (sc : Scopes) : (p sc).Fits old
  makes (sc : Scopes) : ∃ a, w.run (.ok sc) = (a, (p sc).outcome) ∧ Q a ((p sc).overwrite old)

/-- **Walks and passes compose.** -/
theorem Writes.bind {w : Walk α} {f : α → Walk β} (hw : w.Writes p old Q)
    (hf : ∀ a refs, refs.length = old.length → Q a refs →
      (f a).Writes q more fun b refs' => R b (refs ++ refs')) :
    (w >>= f).Writes (p.andThen q) (old ++ more) R := by
  have hrun : ∀ st, (w >>= f).run st = (f (w.run st).1).run (w.run st).2 := fun _ => rfl
  refine ⟨fun e => ?_, fun sc => ?_, fun sc => ?_⟩
  · obtain ⟨a, ha, hQ⟩ := hw.idle e
    obtain ⟨b, hb, hR⟩ := (hf a old rfl hQ).idle e
    exact ⟨b, by rw [hrun, ha]; exact hb, hR⟩
  · obtain ⟨a, -, hQ⟩ := hw.makes sc
    have hfits := hw.fits sc
    have hmore := (hf a _ hfits.length_overwrite hQ).fits (p sc).scopes
    cases herror : (p sc).error? with
    | some e =>
      rw [Pass.andThen_of_error herror]
      refine ⟨?_, fun h => ?_⟩
      · rw [List.length_append]
        exact Nat.le_trans hfits.le (Nat.le_add_right _ _)
      · rw [herror] at h
        cases h
    | none =>
      have hall := hfits.eq herror
      rw [Pass.andThen_of_done herror]
      refine ⟨?_, fun h => ?_⟩
      · simp only [List.length_append, hall]
        exact Nat.add_le_add_left hmore.le _
      · simp only [List.length_append, hall, hmore.eq h]
  · obtain ⟨a, ha, hQ⟩ := hw.makes sc
    have hfits := hw.fits sc
    cases herror : (p sc).error? with
    | some e =>
      -- the second walk is idle
      have hend : (p sc).outcome = .error e := by rw [Trail.outcome, herror]
      obtain ⟨b, hb, hR⟩ := (hf a _ hfits.length_overwrite hQ).idle e
      rw [Pass.andThen_of_error herror, hfits.overwrite_append]
      refine ⟨b, ?_, hR⟩
      rw [hrun, ha, hend]
      exact hb
    | none =>
      -- all of `old` is bound, and the second pass goes on behind it
      have hend : (p sc).outcome = .ok (p sc).scopes := by rw [Trail.outcome, herror]
      have hall := hfits.eq herror
      rw [hfits.overwrite_eq herror] at hQ
      obtain ⟨b, hb, hR⟩ := (hf a _ hall hQ).makes (p sc).scopes
      rw [Pass.andThen_of_done herror]
      refine ⟨b, ?_, ?_⟩
      · rw [hrun, ha, hend]
        exact hb
      · rw [Trail.overwrite]
        simp only [List.length_append, hall, List.append_assoc]
        rw [← List.drop_drop, List.drop_left]
        exact hR

theorem writes_pure {a : α} (h : Q a []) : (pure a : Walk α).Writes .done [] Q :=
  ⟨fun _ => ⟨a, rfl, h⟩, fun _ => ⟨Nat.le_refl _, fun _ => rfl⟩, fun _ => ⟨a, rfl, h⟩⟩

theorem Writes.map {w : Walk α} {f : α → β} (hw : w.Writes p old Q)
    (hf : ∀ a refs, Q a refs → R (f a) refs) :
    (w >>= fun a => pure (f a)).Writes p old R := by
  refine ⟨fun e => ?_, hw.fits, fun sc => ?_⟩
  · obtain ⟨a, ha, hQ⟩ := hw.idle e
    exact ⟨f a, congrArg (Prod.map f id) ha, hf a old hQ⟩
  · obtain ⟨a, ha, hQ⟩ := hw.makes sc
    exact ⟨f a, congrArg (Prod.map f id) ha, hf a _ hQ⟩

/-- A step that binds no reference. -/
def Silent (w : Walk Unit) (p : Pass) : Prop := w.Writes p [] fun _ refs => refs = []

theorem silent_check (f : Scopes → Except ScopeError Scopes) : Silent (check f) (.check f) := by
  refine ⟨fun _ => ⟨(), rfl, rfl⟩, fun sc => ?_, fun sc => ⟨(), ?_, ?_⟩⟩
  · unfold Pass.check
    split <;> exact ⟨Nat.le_refl _, fun _ => rfl⟩
  · change ((), f sc) = ((), (Pass.check f sc).outcome)
    unfold Pass.check
    split <;> rename_i heq <;> rw [heq] <;> rfl
  · unfold Pass.check
    split <;> rfl

theorem silent_change (f : Scopes → Scopes) : Silent (change f) (.change f) :=
  ⟨fun _ => ⟨(), rfl, rfl⟩, fun _ => ⟨Nat.le_refl _, fun _ => rfl⟩, fun _ => ⟨(), rfl, rfl⟩⟩

theorem Silent.andThen {w : Walk Unit} {w' : Walk β} (hw : Silent w p) (hw' : w'.Writes q more R) :
    (w >>= fun _ => w').Writes (p.andThen q) more R := by
  refine Writes.bind hw fun _ refs _ hrefs => ?_
  obtain rfl := hrefs
  exact hw'

theorem silent_introduce (name : String) (line : Nat) :
    Silent (introduce name line) (.introduce name line) :=
  (silent_check _).andThen (silent_change _)

theorem silent_introduceAll (line : Nat) (names : List String) :
    Silent (introduceAll line names) (.introduceAll line names) := by
  induction names with
  | nil => exact writes_pure rfl
  | cons name names ih => exact (silent_introduce name line).andThen ih

theorem Writes.thenChange {w : Walk α} {f : α → β} (g : Scopes → Scopes) (hw : w.Writes p old Q)
    (hf : ∀ a refs, Q a refs → R (f a) refs) :
    (do let a ← w; change g; return f a : Walk β).Writes (p.andThen (.change g)) old R := by
  have h : (do let a ← w; change g; return f a : Walk β).Writes (p.andThen (.change g))
      (old ++ []) R := by
    refine hw.bind fun a refs _ hQ => (silent_change g).map fun _ refs' hrefs' => ?_
    rw [hrefs', List.append_nil]
    exact hf a refs hQ
  rwa [List.append_nil] at h

/-- **A scope** is opened, walked through and closed. -/
theorem Writes.inside {w : Walk α} {f : α → β} (enter leave : Scopes → Scopes)
    (hw : w.Writes p old Q) (hf : ∀ a refs, Q a refs → R (f a) refs) :
    (do change enter; let a ← w; change leave; return f a : Walk β).Writes
      (.inside enter leave p) old R := by
  have hrun : ∀ st, (do change enter; let a ← w; change leave; return f a : Walk β).run st =
      (f (w.run (st.map enter)).1, (w.run (st.map enter)).2.map leave) := fun _ => rfl
  refine ⟨fun e => ?_, fun sc => ?_, fun sc => ?_⟩
  · obtain ⟨a, ha, hQ⟩ := hw.idle e
    have hidle : w.run ((.error e : Except ScopeError Scopes).map enter) = (a, .error e) := ha
    exact ⟨f a, by rw [hrun, hidle]; rfl, hf a old hQ⟩
  · exact ⟨(hw.fits (enter sc)).le, (hw.fits (enter sc)).eq⟩
  · obtain ⟨a, ha, hQ⟩ := hw.makes (enter sc)
    have hmakes : w.run ((.ok sc : Except ScopeError Scopes).map enter) =
        (a, (p (enter sc)).outcome) := ha
    refine ⟨f a, ?_, hf a _ hQ⟩
    rw [hrun, hmakes, Pass.inside, Trail.outcome, Trail.outcome]
    cases (p (enter sc)).error? <;> rfl

theorem writes_bindingOf (name : String) (binding : Binding) :
    (bindingOf name binding).Writes (.write name) [(name, binding)]
      fun b refs => refs = [(name, b)] :=
  ⟨fun _ => ⟨binding, rfl, rfl⟩, fun _ => ⟨Nat.le_refl _, fun _ => rfl⟩,
    fun sc => ⟨sc.find name, rfl, rfl⟩⟩

end Walk

/-! ## Trees -/

/-- What a walk makes of a tree: it differs in its bindings only, which are the given ones. Where
these are the bindings that were there, it is the same tree. -/
structure Rebound {α : Type} (unbind : α → α) (references : α → List Reference) (a a' : α)
    (refs : List Reference) : Prop where
  unbound : unbind a' = unbind a
  bindings : references a' = refs
  same : refs = references a → a' = a

open Walk

mutual

/-- **Scope analysis makes of an expression what a pass writes into it.** -/
theorem Expr.writes : ∀ e : Expr,
    e.resolve.Writes e.pass e.bindings (Rebound Expr.unbound Expr.bindings e)
  | .literal .. => by
    rw [Expr.resolve, Expr.pass, Expr.bindings]
    exact writes_pure ⟨rfl, rfl, fun _ => rfl⟩
  | .var line name binding => by
    rw [Expr.resolve, Expr.pass, Expr.bindings]
    refine (silent_check _).andThen ((writes_bindingOf name binding).map ?_)
    rintro b _ rfl
    refine ⟨rfl, rfl, fun h => ?_⟩
    cases h
    rfl
  | .assign line name binding value => by
    rw [Expr.resolve, Expr.pass, Expr.bindings]
    refine value.writes.bind fun value' refs hlength hvalue =>
      (writes_bindingOf name binding).map ?_
    rintro b _ rfl
    refine ⟨by rw [Expr.unbound, Expr.unbound, hvalue.unbound],
      by rw [Expr.bindings, hvalue.bindings], fun h => ?_⟩
    obtain ⟨hold, hb⟩ := List.append_inj h hlength
    cases hb
    rw [hvalue.same hold]
  | .get _ _ e | .group _ e | .unary _ _ e => by
    rw [Expr.resolve, Expr.pass, Expr.bindings]
    exact e.writes.map fun e' refs he =>
      ⟨by rw [Expr.unbound, Expr.unbound, he.unbound], by rw [Expr.bindings, he.bindings],
        fun h => by rw [he.same h]⟩
  | .binary _ _ l r | .logical _ _ l r | .set _ _ r l => by
    rw [Expr.resolve, Expr.pass, Expr.bindings]
    refine l.writes.bind fun l' refs hlength hl => r.writes.map fun r' refs' hr =>
      ⟨by rw [Expr.unbound, Expr.unbound, hl.unbound, hr.unbound],
        by rw [Expr.bindings, hl.bindings, hr.bindings], fun h => ?_⟩
    obtain ⟨hold, hold'⟩ := List.append_inj h hlength
    rw [hl.same hold, hr.same hold']
  | .call _ callee arguments => by
    rw [Expr.resolve, Expr.pass, Expr.bindings]
    refine callee.writes.bind fun c refs hlength hc =>
      (Expr.writesAll arguments).map fun as refs' has =>
        ⟨by rw [Expr.unbound, Expr.unbound, hc.unbound, has.unbound],
          by rw [Expr.bindings, hc.bindings, has.bindings], fun h => ?_⟩
    obtain ⟨hold, hold'⟩ := List.append_inj h hlength
    rw [hc.same hold, has.same hold']

theorem Expr.writesAll : ∀ es : List Expr,
    (Expr.resolveAll es).Writes (Expr.passAll es) (Expr.allBindings es)
      (Rebound Expr.allUnbound Expr.allBindings es)
  | [] => by
    rw [Expr.resolveAll, Expr.passAll, Expr.allBindings]
    exact writes_pure ⟨rfl, rfl, fun _ => rfl⟩
  | e :: es => by
    rw [Expr.resolveAll, Expr.passAll, Expr.allBindings]
    refine e.writes.bind fun e' refs hlength he => (Expr.writesAll es).map fun es' refs' hes =>
      ⟨by rw [Expr.allUnbound, Expr.allUnbound, he.unbound, hes.unbound],
        by rw [Expr.allBindings, he.bindings, hes.bindings], fun h => ?_⟩
    obtain ⟨hold, hold'⟩ := List.append_inj h hlength
    rw [he.same hold, hes.same hold']

end

theorem Expr.writesOption (e : Option Expr) :
    (Expr.resolveOption e).Writes (Expr.passOption e) (Expr.bindingsOption e)
      (Rebound (Option.map Expr.unbound) Expr.bindingsOption e) := by
  cases e with
  | none => exact writes_pure ⟨rfl, rfl, fun _ => rfl⟩
  | some e =>
    exact e.writes.map fun e' refs he =>
      ⟨congrArg some he.unbound, he.bindings, fun h => congrArg some (he.same h)⟩

mutual

/-- **Scope analysis makes of a statement what a pass writes into it.** -/
theorem Stmt.writes : ∀ s : Stmt,
    s.resolve.Writes s.pass s.bindings (Rebound Stmt.unbound Stmt.bindings s)
  | .block line body => by
    rw [Stmt.resolve, Stmt.pass, Stmt.bindings]
    exact (Stmt.writesAll body).inside _ _ fun body' refs hbody =>
      ⟨by rw [Stmt.unbound, Stmt.unbound, hbody.unbound], by rw [Stmt.bindings, hbody.bindings],
        fun h => by rw [hbody.same h]⟩
  | .expression line e => by
    rw [Stmt.resolve, Stmt.pass, Stmt.bindings]
    exact e.writes.map fun e' refs he =>
      ⟨by rw [Stmt.unbound, Stmt.unbound, he.unbound], by rw [Stmt.bindings, he.bindings],
        fun h => by rw [he.same h]⟩
  | .function line name params body => by
    rw [Stmt.resolve_function, Stmt.pass, Stmt.bindings]
    have hbody := (silent_introduceAll line params).andThen (Stmt.writesAll body)
    exact (silent_introduce name line).andThen (hbody.inside _ _ fun body' refs hbody' =>
      ⟨by rw [Stmt.unbound, Stmt.unbound, hbody'.unbound], by rw [Stmt.bindings, hbody'.bindings],
        fun h => by rw [hbody'.same h]⟩)
  | .ifThen line c s | .whileLoop line c s => by
    rw [Stmt.resolve, Stmt.pass, Stmt.bindings]
    refine c.writes.bind fun c' refs hlength hc => s.writes.map fun s' refs' hs =>
      ⟨by rw [Stmt.unbound, Stmt.unbound, hc.unbound, hs.unbound],
        by rw [Stmt.bindings, hc.bindings, hs.bindings], fun h => ?_⟩
    obtain ⟨hold, hold'⟩ := List.append_inj h hlength
    rw [hc.same hold, hs.same hold']
  | .ifElse line c yes no => by
    rw [Stmt.resolve, Stmt.pass, Stmt.bindings]
    refine c.writes.bind fun c' refs hlength hc => yes.writes.bind fun yes' refs' hlength' hyes =>
      no.writes.map fun no' refs'' hno =>
        ⟨by rw [Stmt.unbound, Stmt.unbound, hc.unbound, hyes.unbound, hno.unbound],
          by rw [Stmt.bindings, hc.bindings, hyes.bindings, hno.bindings], fun h => ?_⟩
    obtain ⟨hold, hrest⟩ := List.append_inj h hlength
    obtain ⟨hold', hold''⟩ := List.append_inj hrest hlength'
    rw [hc.same hold, hyes.same hold', hno.same hold'']
  | .giveBack line value => by
    rw [Stmt.resolve, Stmt.pass, Stmt.bindings]
    exact (silent_check _).andThen ((Expr.writesOption value).map fun value' refs hvalue =>
      ⟨congrArg (Stmt.giveBack line) hvalue.unbound, hvalue.bindings,
        fun h => by rw [hvalue.same h]⟩)
  | .declare line name initial => by
    rw [Stmt.resolve, Stmt.pass, Stmt.bindings]
    exact (silent_check _).andThen ((Expr.writesOption initial).thenChange _ fun initial' refs h =>
      ⟨congrArg (Stmt.declare line name) h.unbound, h.bindings, fun hold => by rw [h.same hold]⟩)
  | .forLoop line name e body => by
    rw [Stmt.resolve_forLoop, Stmt.pass, Stmt.bindings]
    have hbody := (silent_introduce name line).andThen body.writes
    refine e.writes.bind fun e' refs hlength he => hbody.inside _ _ fun body' refs' hbody' =>
      ⟨by rw [Stmt.unbound, Stmt.unbound, he.unbound, hbody'.unbound],
        by rw [Stmt.bindings, he.bindings, hbody'.bindings], fun h => ?_⟩
    obtain ⟨hold, hold'⟩ := List.append_inj h hlength
    rw [he.same hold, hbody'.same hold']

/-- **Scope analysis makes of a program what a pass writes into it.** -/
theorem Stmt.writesAll : ∀ ss : List Stmt,
    (Stmt.resolveAll ss).Writes (Stmt.passAll ss) (Stmt.allBindings ss)
      (Rebound Stmt.allUnbound Stmt.allBindings ss)
  | [] => by
    rw [Stmt.resolveAll, Stmt.passAll, Stmt.allBindings]
    exact writes_pure ⟨rfl, rfl, fun _ => rfl⟩
  | s :: ss => by
    rw [Stmt.resolveAll, Stmt.passAll, Stmt.allBindings]
    refine s.writes.bind fun s' refs hlength hs => (Stmt.writesAll ss).map fun ss' refs' hss =>
      ⟨by rw [Stmt.allUnbound, Stmt.allUnbound, hs.unbound, hss.unbound],
        by rw [Stmt.allBindings, hs.bindings, hss.bindings], fun h => ?_⟩
    obtain ⟨hold, hold'⟩ := List.append_inj h hlength
    rw [hs.same hold, hss.same hold']

end

/-- **Scope analysis of a program and the pass of a resolver over it** meet the same error, and
the bindings that the resolver writes are those of the program that scope analysis makes. -/
theorem Resolver.resolve_eq_pass (r : Resolver) (ss : List Stmt) :
    (resolve ss).2 = (r.pass ss).error? ∧ Rebound Stmt.allUnbound Stmt.allBindings ss
      (resolve ss).1 ((r.pass ss).overwrite (Stmt.allBindings ss)) := by
  obtain ⟨ss', hrun, hrebound⟩ := (Stmt.writesAll ss).makes .outermost
  have hpass : r.pass ss = Stmt.passAll ss .outermost := rfl
  have hresolve : resolve ss = (ss', (r.pass ss).error?) := by
    rw [resolve, hrun, hpass, Trail.outcome]
    cases (Stmt.passAll ss .outermost).error? <;> rfl
  rw [hresolve]
  exact ⟨rfl, hrebound⟩

end Scriptlet
