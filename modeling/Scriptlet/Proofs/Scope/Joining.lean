import Scriptlet.Proofs.Scope.Resolution
import Scriptlet.Proofs.Tree.Relined

/-!
# Scope analysis of programs one after another

Scope analysis looks at lines for its errors only, and at the end of a program it is back at top
level, where nothing is declared. So a program is analysed in the same way on other lines, and in
the same way behind another program.

* `Walk.Moved`: **two walks differ in lines only**; `Walk.Moved.bind` composes walks.
* `resolve_relined`: the analysis of a program on other lines.
* `resolve_append`: the analysis of two programs one after the other.
-/

namespace Scriptlet

/-- The error on another line. -/
def ScopeError.relined (f : Nat → Nat) : ScopeError → ScopeError
  | .alreadyDeclared name line => .alreadyDeclared name (f line)
  | .readInOwnInitializer name line => .readInOwnInitializer name (f line)
  | .returnOutsideFunction line => .returnOutsideFunction (f line)

/-! ## Walks on other lines -/

namespace Walk

variable {α β : Type} {f : Nat → Nat}

/-- **Two walks differ in lines only**: the second makes the same tree as the first up to `m`, and
leaves the same scopes or the same error on another line. -/
def Moved (f : Nat → Nat) (m : α → α) (w w' : Walk α) : Prop :=
  ∀ sc, w'.run (sc.mapError (ScopeError.relined f)) =
    (m (w.run sc).1, (w.run sc).2.mapError (ScopeError.relined f))

theorem moved_pure (m : α → α) (a : α) : Moved f m (pure a) (pure (m a)) := fun _ => rfl

theorem Moved.bind {m : α → α} {m' : β → β} {w w' : Walk α} {g g' : α → Walk β}
    (h : Moved f m w w') (hg : ∀ a, Moved f m' (g a) (g' (m a))) :
    Moved f m' (w >>= g) (w' >>= g') := by
  intro sc
  change (g' (w'.run _).1).run (w'.run _).2 = _
  rw [h sc]
  exact hg _ _

theorem moved_check {g g' : Scopes → Except ScopeError Scopes}
    (h : ∀ sc, g' sc = (g sc).mapError (ScopeError.relined f)) :
    Moved f id (check g) (check g') := by
  rintro (e | sc)
  · rfl
  · exact congrArg (Prod.mk ()) (h sc)

theorem moved_change (g : Scopes → Scopes) : Moved f id (change g) (change g) := by
  rintro (e | sc) <;> rfl

theorem moved_bindingOf (name : String) (old : Binding) :
    Moved f id (bindingOf name old) (bindingOf name old) := by
  rintro (e | sc) <;> rfl

theorem moved_declare (name : String) (line : Nat) :
    Moved f id (check (·.declare name line)) (check (·.declare name (f line))) := by
  refine moved_check fun sc => ?_
  unfold Scopes.declare
  split
  · rfl
  · split_ifs <;> rfl

theorem moved_introduce (name : String) (line : Nat) :
    Moved f id (introduce name line) (introduce name (f line)) :=
  (moved_declare name line).bind fun _ => moved_change _

theorem moved_introduceAll (line : Nat) (names : List String) :
    Moved f id (introduceAll line names) (introduceAll (f line) names) := by
  induction names with
  | nil => exact moved_pure id ()
  | cons name names ih => exact (moved_introduce name line).bind fun _ => ih

end Walk

open Walk

variable (f : Nat → Nat)

mutual

theorem Expr.moved_resolve :
    ∀ e : Expr, Moved f (Expr.relined f) e.resolve (e.relined f).resolve
  | .literal .. => by
    simp only [Expr.relined, Expr.resolve]
    exact moved_pure (Expr.relined f) _
  | .var _ name _ => by
    simp only [Expr.relined, Expr.resolve]
    refine (moved_check fun sc => ?_).bind fun _ => (moved_bindingOf _ _).bind fun _ =>
      moved_pure (Expr.relined f) _
    unfold Scopes.read
    split <;> rfl
  | .assign _ _ _ e => by
    simp only [Expr.relined, Expr.resolve]
    exact e.moved_resolve.bind fun _ => (moved_bindingOf _ _).bind fun _ =>
      moved_pure (Expr.relined f) _
  | .get _ _ e | .group _ e | .unary _ _ e => by
    simp only [Expr.relined, Expr.resolve]
    exact e.moved_resolve.bind fun _ => moved_pure (Expr.relined f) _
  | .binary _ _ l r | .logical _ _ l r => by
    simp only [Expr.relined, Expr.resolve]
    exact l.moved_resolve.bind fun _ => r.moved_resolve.bind fun _ => moved_pure (Expr.relined f) _
  | .set _ _ o v => by
    simp only [Expr.relined, Expr.resolve]
    exact v.moved_resolve.bind fun _ => o.moved_resolve.bind fun _ => moved_pure (Expr.relined f) _
  | .call _ callee arguments => by
    simp only [Expr.relined, Expr.resolve]
    exact callee.moved_resolve.bind fun _ => (Expr.moved_resolveAll arguments).bind fun _ =>
      moved_pure (Expr.relined f) _

theorem Expr.moved_resolveAll :
    ∀ es : List Expr,
      Moved f (Expr.allRelined f) (Expr.resolveAll es) (Expr.resolveAll (Expr.allRelined f es))
  | [] => by
    simp only [Expr.allRelined, Expr.resolveAll]
    exact moved_pure (Expr.allRelined f) []
  | e :: es => by
    simp only [Expr.allRelined, Expr.resolveAll]
    exact e.moved_resolve.bind fun _ => (Expr.moved_resolveAll es).bind fun _ =>
      moved_pure (Expr.allRelined f) _

end

theorem Expr.moved_resolveOption (e : Option Expr) :
    Moved f (Option.map (Expr.relined f)) (Expr.resolveOption e)
      (Expr.resolveOption (e.map (Expr.relined f))) := by
  cases e with
  | none => exact moved_pure (Option.map (Expr.relined f)) none
  | some e =>
    exact (e.moved_resolve f).bind fun e => moved_pure (Option.map (Expr.relined f)) (some e)

mutual

theorem Stmt.moved_resolve :
    ∀ s : Stmt, Moved f (Stmt.relined f) s.resolve (s.relined f).resolve
  | .block _ body => by
    simp only [Stmt.relined, Stmt.resolve]
    exact (moved_change _).bind fun _ => (Stmt.moved_resolveAll body).bind fun _ =>
      (moved_change _).bind fun _ => moved_pure (Stmt.relined f) _
  | .expression _ e => by
    simp only [Stmt.relined, Stmt.resolve]
    exact (e.moved_resolve f).bind fun _ => moved_pure (Stmt.relined f) _
  | .function line name params body => by
    simp only [Stmt.relined, Stmt.resolve]
    exact (moved_introduce name line).bind fun _ => (moved_change _).bind fun _ =>
      (moved_introduceAll line params).bind fun _ => (Stmt.moved_resolveAll body).bind fun _ =>
      (moved_change _).bind fun _ => moved_pure (Stmt.relined f) _
  | .ifThen _ c s | .whileLoop _ c s => by
    simp only [Stmt.relined, Stmt.resolve]
    exact (c.moved_resolve f).bind fun _ => s.moved_resolve.bind fun _ =>
      moved_pure (Stmt.relined f) _
  | .ifElse _ c yes no => by
    simp only [Stmt.relined, Stmt.resolve]
    exact (c.moved_resolve f).bind fun _ => yes.moved_resolve.bind fun _ =>
      no.moved_resolve.bind fun _ => moved_pure (Stmt.relined f) _
  | .giveBack _ e => by
    simp only [Stmt.relined, Stmt.resolve]
    refine (moved_check fun sc => ?_).bind fun _ => (Expr.moved_resolveOption f e).bind fun _ =>
      moved_pure (Stmt.relined f) _
    unfold Scopes.leave
    split_ifs <;> rfl
  | .declare line name e => by
    simp only [Stmt.relined, Stmt.resolve]
    exact (moved_declare name line).bind fun _ => (Expr.moved_resolveOption f e).bind fun _ =>
      (moved_change _).bind fun _ => moved_pure (Stmt.relined f) _
  | .forLoop line name e body => by
    simp only [Stmt.relined, Stmt.resolve]
    exact (e.moved_resolve f).bind fun _ => (moved_change _).bind fun _ =>
      (moved_introduce name line).bind fun _ => body.moved_resolve.bind fun _ =>
      (moved_change _).bind fun _ => moved_pure (Stmt.relined f) _

theorem Stmt.moved_resolveAll :
    ∀ ss : List Stmt,
      Moved f (Stmt.allRelined f) (Stmt.resolveAll ss) (Stmt.resolveAll (Stmt.allRelined f ss))
  | [] => by
    simp only [Stmt.allRelined, Stmt.resolveAll]
    exact moved_pure (Stmt.allRelined f) []
  | s :: ss => by
    simp only [Stmt.allRelined, Stmt.resolveAll]
    exact s.moved_resolve.bind fun _ => (Stmt.moved_resolveAll ss).bind fun _ =>
      moved_pure (Stmt.allRelined f) _

end

/-- **A program is analysed in the same way on other lines**, and so are its errors. -/
theorem resolve_relined (ss : List Stmt) :
    resolve (Stmt.allRelined f ss) =
      (Stmt.allRelined f (resolve ss).1, (resolve ss).2.map (ScopeError.relined f)) := by
  have hmoved : (Stmt.resolveAll (Stmt.allRelined f ss)).run (.ok .outermost) = _ :=
    Stmt.moved_resolveAll f ss (.ok .outermost)
  unfold resolve
  rw [hmoved]
  rcases (Stmt.resolveAll ss).run (.ok .outermost) with ⟨ss', e | sc⟩ <;> rfl

/-! ## Programs one after another -/

theorem resolve_eq_none_iff {ss ss' : List Stmt} :
    resolve ss = (ss', none) ↔ ∃ sc, Gives (Stmt.resolveAll ss) .outermost ss' sc := by
  unfold resolve Gives
  rcases (Stmt.resolveAll ss).run (.ok .outermost) with ⟨ss₁, e | sc⟩
  · exact iff_of_false nofun (by rintro ⟨_, ⟨⟩⟩)
  · constructor
    · rintro ⟨⟩
      exact ⟨sc, rfl⟩
    · rintro ⟨_, ⟨⟩⟩
      rfl

theorem Stmt.gives_append {ss ss' ts ts' : List Stmt} {sc mid sc' : Scopes}
    (h : Gives (Stmt.resolveAll ss) sc ss' mid) (h' : Gives (Stmt.resolveAll ts) mid ts' sc') :
    Gives (Stmt.resolveAll (ss ++ ts)) sc (ss' ++ ts') sc' := by
  induction ss generalizing sc ss' with
  | nil =>
    rw [Stmt.resolveAll, gives_pure] at h
    obtain ⟨rfl, rfl⟩ := h
    exact h'
  | cons s ss ih =>
    simp only [Stmt.resolveAll, gives_bind, gives_pure] at h
    obtain ⟨s₁, sc₁, hs, ss₁, _, hss, rfl, rfl⟩ := h
    simp only [List.cons_append, Stmt.resolveAll, gives_bind, gives_pure]
    exact ⟨s₁, sc₁, hs, _, sc', ih hss, rfl, rfl⟩

theorem Stmt.gives_outermost {ss ss' : List Stmt} {sc : Scopes} (hwell : Stmt.AllWellFormed ss)
    (h : Gives (Stmt.resolveAll ss) .outermost ss' sc) : sc = .outermost := by
  have hresolved : Stmt.AllResolved False [] 0 ss ss' sc :=
    Stmt.allResolved ss hwell nofun nofun h
  have hnone : ss.foldl (fun Γ s => Layers.bind s.declared Γ) [] = [] := by
    clear hwell h hresolved
    induction ss with
    | nil => rfl
    | cons s ss ih => exact ih
  rw [hresolved.scopes, hnone]
  rfl

/-- **Two programs one after the other** are analysed as each of them is. -/
theorem resolve_append {ss ss' ts ts' : List Stmt} (hwell : Stmt.AllWellFormed ss)
    (h : resolve ss = (ss', none)) (h' : resolve ts = (ts', none)) :
    resolve (ss ++ ts) = (ss' ++ ts', none) := by
  obtain ⟨sc, hss⟩ := resolve_eq_none_iff.mp h
  obtain ⟨sc', hts⟩ := resolve_eq_none_iff.mp h'
  obtain rfl := Stmt.gives_outermost hwell hss
  exact resolve_eq_none_iff.mpr ⟨sc', Stmt.gives_append hss hts⟩

end Scriptlet
