import Scriptlet.Scope.Resolve
import Scriptlet.Proofs.Scope.Scoped

/-!
# Scope analysis binds what is in scope

If the walk over a program meets no error, then it has bound every reference to the innermost scope
that has declared its name.

* `Walk.Gives`: **a walk succeeds** with a tree and leaves scopes; `Walk.gives_bind` takes walks
  apart.
* `Layers.scopes`: the open scopes of the walk at a place of the program.
* `Expr.resolved`, `Stmt.resolved`: what a walk over a tree gives.
* `allScoped_of_resolve`: **a program that passes scope analysis is scoped**.
-/

namespace Scriptlet

/-! ## Walks -/

namespace Walk

variable {α β : Type}

/-- A walk that leaves an error as it is. -/
class Sticky (w : Walk α) : Prop where
  error (e : ScopeError) : (w.run (.error e)).2 = .error e

/-- **A walk succeeds**: from scopes without error it makes `a` and leaves scopes without error. -/
def Gives (w : Walk α) (sc : Scopes) (a : α) (sc' : Scopes) : Prop :=
  w.run (.ok sc) = (a, .ok sc')

instance sticky_pure (a : α) : Sticky (pure a : Walk α) := ⟨fun _ => rfl⟩

instance sticky_bind (w : Walk α) (f : α → Walk β) [Sticky w] [∀ a, Sticky (f a)] :
    Sticky (w >>= f) where
  error e := by
    change ((f (w.run (.error e)).1).run (w.run (.error e)).2).2 = _
    rw [Sticky.error (w := w), Sticky.error]

instance sticky_check (f : Scopes → Except ScopeError Scopes) : Sticky (check f) :=
  ⟨fun _ => rfl⟩

instance sticky_change (f : Scopes → Scopes) : Sticky (change f) := ⟨fun _ => rfl⟩

instance sticky_bindingOf (name : String) (old : Binding) : Sticky (bindingOf name old) :=
  ⟨fun _ => rfl⟩

instance sticky_introduce (name : String) (line : Nat) : Sticky (introduce name line) := by
  unfold introduce
  infer_instance

instance sticky_introduceAll (line : Nat) (names : List String) :
    Sticky (introduceAll line names) := by
  induction names with
  | nil => exact sticky_pure ()
  | cons name names ih =>
    unfold introduceAll
    infer_instance

theorem gives_pure {a b : α} {sc sc' : Scopes} :
    Gives (pure a) sc b sc' ↔ b = a ∧ sc' = sc := by
  change ((a, Except.ok sc) : α × Except ScopeError Scopes) = (b, .ok sc') ↔ _
  rw [Prod.mk.injEq, Except.ok.injEq]
  exact and_congr eq_comm eq_comm

theorem gives_bind {w : Walk α} {f : α → Walk β} [∀ a, Sticky (f a)] {sc sc' : Scopes} {b : β} :
    Gives (w >>= f) sc b sc' ↔ ∃ a mid, Gives w sc a mid ∧ Gives (f a) mid b sc' := by
  have hrun : (w >>= f).run (.ok sc) = (f (w.run (.ok sc)).1).run (w.run (.ok sc)).2 := rfl
  unfold Gives
  rw [hrun]
  rcases hw : w.run (.ok sc) with ⟨a, e | mid⟩
  · constructor
    · intro h
      have herror := Sticky.error (w := f a) e
      rw [h] at herror
      cases herror
    · rintro ⟨_, _, heq, -⟩
      cases heq
  · constructor
    · exact fun h => ⟨a, mid, rfl, h⟩
    · rintro ⟨_, _, heq, h⟩
      cases heq
      exact h

theorem gives_check {f : Scopes → Except ScopeError Scopes} {sc sc' : Scopes} {u : Unit} :
    Gives (check f) sc u sc' ↔ f sc = .ok sc' := by
  change (((), f sc) : Unit × Except ScopeError Scopes) = (u, .ok sc') ↔ _
  simp

theorem gives_change {f : Scopes → Scopes} {sc sc' : Scopes} {u : Unit} :
    Gives (change f) sc u sc' ↔ sc' = f sc := by
  change (((), Except.ok (f sc)) : Unit × Except ScopeError Scopes) = (u, .ok sc') ↔ _
  simp [eq_comm]

theorem gives_bindingOf {name : String} {old b : Binding} {sc sc' : Scopes} :
    Gives (bindingOf name old) sc b sc' ↔ b = sc.find name ∧ sc' = sc := by
  change ((sc.find name, Except.ok sc) : Binding × Except ScopeError Scopes) = (b, .ok sc') ↔ _
  rw [Prod.mk.injEq, Except.ok.injEq]
  exact and_congr eq_comm eq_comm

end Walk

open Walk

mutual

theorem Expr.sticky_resolve : ∀ e : Expr, Sticky e.resolve
  | .literal .. => by
    rw [Expr.resolve]
    infer_instance
  | .var .. => by
    rw [Expr.resolve]
    infer_instance
  | .assign _ _ _ e | .get _ _ e | .group _ e | .unary _ _ e => by
    have := e.sticky_resolve
    rw [Expr.resolve]
    infer_instance
  | .binary _ _ l r | .logical _ _ l r | .set _ _ l r => by
    have := l.sticky_resolve
    have := r.sticky_resolve
    rw [Expr.resolve]
    infer_instance
  | .call _ callee arguments => by
    have := callee.sticky_resolve
    have := Expr.sticky_resolveAll arguments
    rw [Expr.resolve]
    infer_instance

theorem Expr.sticky_resolveAll : ∀ es : List Expr, Sticky (Expr.resolveAll es)
  | [] => by
    rw [Expr.resolveAll]
    infer_instance
  | e :: es => by
    have := e.sticky_resolve
    have := Expr.sticky_resolveAll es
    rw [Expr.resolveAll]
    infer_instance

end

attribute [instance] Expr.sticky_resolve Expr.sticky_resolveAll

instance Expr.sticky_resolveOption (e : Option Expr) : Sticky (Expr.resolveOption e) := by
  cases e <;> unfold Expr.resolveOption <;> infer_instance

mutual

theorem Stmt.sticky_resolve : ∀ s : Stmt, Sticky s.resolve
  | .block _ body | .function _ _ _ body => by
    have := Stmt.sticky_resolveAll body
    rw [Stmt.resolve]
    infer_instance
  | .expression .. | .giveBack .. | .declare .. => by
    rw [Stmt.resolve]
    infer_instance
  | .ifThen _ _ s | .whileLoop _ _ s | .forLoop _ _ _ s => by
    have := s.sticky_resolve
    rw [Stmt.resolve]
    infer_instance
  | .ifElse _ _ yes no => by
    have := yes.sticky_resolve
    have := no.sticky_resolve
    rw [Stmt.resolve]
    infer_instance

theorem Stmt.sticky_resolveAll : ∀ ss : List Stmt, Sticky (Stmt.resolveAll ss)
  | [] => by
    rw [Stmt.resolveAll]
    infer_instance
  | s :: ss => by
    have := s.sticky_resolve
    have := Stmt.sticky_resolveAll ss
    rw [Stmt.resolveAll]
    infer_instance

end

attribute [instance] Stmt.sticky_resolve Stmt.sticky_resolveAll

/-! ## Scopes of the walk -/

/-- A scope of the walk whose names can all be read. -/
def Layer.scope (l : Layer) : Scope := l.bound.map fun x => (x, true)

/-- The open scopes of the walk, while `pending` is being initialised. -/
def Layers.scopes (Γ : Layers) (pending : Option String) : List Scope :=
  match Γ, pending with
  | l :: Γ, some x => ((x, false) :: l.scope) :: Γ.map Layer.scope
  | Γ, _ => Γ.map Layer.scope

section Scopes

variable {Γ : Layers} {x : String} {line k : Nat} {sc sc' : Scopes}

theorem Layer.lookup_scope (l : Layer) (x : String) :
    l.scope.lookup x = if x ∈ l.bound then some true else none := by
  rw [Layer.scope]
  induction l.bound with
  | nil => rfl
  | cons y ys ih =>
    by_cases h : x = y
    · simp [h]
    · have hb : (x == y) = false := beq_eq_false_iff_ne.mpr h
      simp [List.lookup_cons, hb, ih, h]

theorem Layer.isSome_lookup_scope (l : Layer) (x : String) :
    (l.scope.lookup x).isSome = decide (x ∈ l.bound) := by
  rw [l.lookup_scope]
  split_ifs with h <;> simp [h]

theorem Layers.scopes_none (Γ : Layers) : Layers.scopes Γ none = Γ.map Layer.scope := by
  cases Γ <;> rfl

theorem Layers.find_scopes_none (Γ : Layers) (x : String) :
    Scopes.find ⟨Layers.scopes Γ none, k⟩ x = Layers.find Γ x := by
  have hscope : (fun l : Layer => (l.scope.lookup x).isSome) = fun l => decide (x ∈ l.bound) :=
    funext fun l => l.isSome_lookup_scope x
  have hindex : (Layers.scopes Γ none).findIdx? (fun scope => (scope.lookup x).isSome) =
      Γ.findIdx? fun l => decide (x ∈ l.bound) := by
    rw [Layers.scopes_none, List.findIdx?_map, Function.comp_def, hscope]
  unfold Scopes.find Layers.find
  cases hfound : Γ.findIdx? fun l => decide (x ∈ l.bound) <;> simp only [hindex, hfound]

/-- **The walk finds names where the layers have them.** -/
theorem Layers.find_scopes {pending : Option String} (h : pending ≠ none → Γ ≠ []) (x : String) :
    Scopes.find ⟨Layers.scopes Γ pending, k⟩ x = Layers.target Γ pending x := by
  cases pending with
  | none => simp [Layers.find_scopes_none, Layers.target]
  | some y =>
    cases Γ with
    | nil => exact absurd rfl (h nofun)
    | cons l Γ =>
      by_cases hxy : y = x
      · simp [Scopes.find, Layers.scopes, Layers.target, hxy, List.findIdx?_cons]
      · have hb : (x == y) = false := beq_eq_false_iff_ne.mpr (Ne.symm hxy)
        have hpass : Scopes.find ⟨Layers.scopes (l :: Γ) (some y), k⟩ x =
            Scopes.find ⟨Layers.scopes (l :: Γ) none, k⟩ x := by
          simp [Scopes.find, Layers.scopes, List.findIdx?_cons, List.lookup_cons, hb]
        rw [hpass, Layers.find_scopes_none, Layers.target, if_neg (by simpa using hxy)]

theorem Layers.read_scopes {pending : Option String} (hΓ : pending ≠ none → Γ ≠ [])
    (h : Scopes.read ⟨Layers.scopes Γ pending, k⟩ x line = .ok sc') :
    pending ≠ some x ∧ sc' = ⟨Layers.scopes Γ pending, k⟩ := by
  unfold Scopes.read at h
  split at h
  · cases h
  · rename_i hne
    refine ⟨?_, (Except.ok.inj h).symm⟩
    rintro rfl
    cases Γ with
    | nil => exact hΓ (Option.some_ne_none x) rfl
    | cons l Γ => exact hne (by simp [Layers.scopes])

/-- **A declaration** makes a new name pending. -/
theorem Layers.declare_scopes (h : Scopes.declare ⟨Layers.scopes Γ none, k⟩ x line = .ok sc') :
    (∀ l ∈ Γ.head?, x ∉ l.bound) ∧ sc' = ⟨Layers.scopes Γ (Layers.pending Γ x), k⟩ := by
  cases Γ with
  | nil =>
    cases h
    exact ⟨nofun, rfl⟩
  | cons l Γ =>
    simp only [Scopes.declare, Layers.scopes, List.map_cons, l.isSome_lookup_scope,
      decide_eq_true_eq] at h
    split_ifs at h with hbound
    cases h
    refine ⟨?_, rfl⟩
    rintro _ ⟨⟩
    exact hbound

theorem Layers.leave_scopes {sc : Scopes} (h : sc.leave line = .ok sc') :
    sc.functions ≠ 0 ∧ sc' = sc := by
  unfold Scopes.leave at h
  split_ifs at h with hk
  cases h
  exact ⟨hk, rfl⟩

theorem Layers.define_scopes (h : ∀ l ∈ Γ.head?, x ∉ l.bound) :
    Scopes.define ⟨Layers.scopes Γ (Layers.pending Γ x), k⟩ x =
      ⟨Layers.scopes (Layers.bind [x] Γ) none, k⟩ := by
  cases Γ with
  | nil => rfl
  | cons l Γ =>
    have hne : ∀ y ∈ l.bound, y ≠ x := fun y hy hyx => h l rfl (hyx ▸ hy)
    simpa [Scopes.define, Layers.scopes, Layers.pending, Layers.bind, Layer.scope] using hne

theorem Layers.introduce_scopes {u : Unit}
    (h : Gives (introduce x line) ⟨Layers.scopes Γ none, k⟩ u sc') :
    (∀ l ∈ Γ.head?, x ∉ l.bound) ∧ sc' = ⟨Layers.scopes (Layers.bind [x] Γ) none, k⟩ := by
  unfold introduce at h
  simp only [gives_bind, gives_check, gives_change] at h
  obtain ⟨-, _, hdeclare, rfl⟩ := h
  obtain ⟨hfresh, rfl⟩ := Layers.declare_scopes hdeclare
  exact ⟨hfresh, Layers.define_scopes hfresh⟩

theorem Layers.introduceAll_scopes {l : Layer} {names : List String} {u : Unit}
    (h : Gives (introduceAll line names) ⟨Layers.scopes (l :: Γ) none, k⟩ u sc') :
    (∀ x ∈ names, x ∉ l.bound) ∧ names.Nodup ∧
      sc' = ⟨Layers.scopes (⟨names.reverse ++ l.bound, l.names⟩ :: Γ) none, k⟩ := by
  induction names generalizing l with
  | nil =>
    obtain ⟨-, rfl⟩ := gives_pure.mp h
    exact ⟨nofun, List.nodup_nil, rfl⟩
  | cons x names ih =>
    unfold introduceAll at h
    rw [gives_bind] at h
    obtain ⟨_, _, hfirst, hmore⟩ := h
    obtain ⟨hfresh, rfl⟩ := Layers.introduce_scopes hfirst
    obtain ⟨hnames, hnodup, rfl⟩ := ih hmore
    simp only [List.singleton_append, List.mem_cons, not_or] at hnames
    refine ⟨?_, List.nodup_cons.mpr ⟨fun hx => (hnames x hx).1 rfl, hnodup⟩, ?_⟩
    · rw [List.forall_mem_cons]
      exact ⟨hfresh l rfl, fun y hy => (hnames y hy).2⟩
    · simp

end Scopes

/-! ## Expressions -/

section Expressions

variable {ordered : Prop} {Γ : Layers} {pending : Option String} {k : Nat}

/-- What a walk over an expression gives. -/
structure Expr.Resolved (ordered : Prop) (Γ : Layers) (pending : Option String) (k : Nat)
    (e e' : Expr) (sc' : Scopes) : Prop where
  scopes : sc' = ⟨Layers.scopes Γ pending, k⟩
  references : e'.Scoped ordered Γ pending
  unbound : e'.unbound = e.unbound

/-- In an ordered program, the references of an expression can be resolved by their names. -/
def Layers.Clear (Γ : Layers) (pending : Option String) (references : List String) : Prop :=
  ∀ x ∈ references, pending ≠ some x ∧ Layers.Settled Γ x

theorem Layers.clear_append {Γ : Layers} {xs ys : List String} :
    Layers.Clear Γ pending (xs ++ ys) ↔ Layers.Clear Γ pending xs ∧ Layers.Clear Γ pending ys :=
  List.forall_mem_append

theorem Layers.clear_cons {Γ : Layers} {x : String} {xs : List String} :
    Layers.Clear Γ pending (x :: xs) ↔
      (pending ≠ some x ∧ Layers.Settled Γ x) ∧ Layers.Clear Γ pending xs :=
  List.forall_mem_cons

mutual

/-- **The walk over an expression** leaves the scopes as they are and binds all references. -/
theorem Expr.resolved (hΓ : pending ≠ none → Γ ≠ []) : ∀ (e : Expr) {e' : Expr}
    {sc' : Scopes},
    (ordered → Layers.Clear Γ pending e.references) →
    Gives e.resolve ⟨Layers.scopes Γ pending, k⟩ e' sc' →
    Expr.Resolved ordered Γ pending k e e' sc'
  | .literal .., e', sc', hclear, h => by
    rw [Expr.resolve, gives_pure] at h
    obtain ⟨rfl, rfl⟩ := h
    exact ⟨rfl, trivial, rfl⟩
  | .var _ x _, e', sc', hclear, h => by
    simp only [Expr.resolve, gives_bind, gives_check, gives_bindingOf, gives_pure] at h
    obtain ⟨-, _, hread, _, _, ⟨rfl, rfl⟩, rfl, rfl⟩ := h
    obtain ⟨hne, rfl⟩ := Layers.read_scopes hΓ hread
    refine ⟨rfl, ⟨hne, ?_, fun ho => (Layers.clear_cons.mp (hclear ho)).1.2⟩, rfl⟩
    rw [Layers.find_scopes hΓ, Layers.target, if_neg hne]
  | .assign _ x _ e, e', sc', hclear, h => by
    simp only [Expr.resolve, gives_bind, gives_bindingOf, gives_pure] at h
    obtain ⟨e₁, _, h₁, _, _, ⟨rfl, rfl⟩, rfl, rfl⟩ := h
    obtain ⟨rfl, hscoped, hunbound⟩ := e.resolved hΓ
      (fun ho => (Layers.clear_cons.mp (hclear ho)).2) h₁
    refine ⟨rfl, ⟨hscoped, Layers.find_scopes hΓ x,
      fun ho => (Layers.clear_cons.mp (hclear ho)).1⟩, ?_⟩
    rw [Expr.unbound, Expr.unbound, hunbound]
  | .get _ _ e, e', sc', hclear, h
  | .group _ e, e', sc', hclear, h
  | .unary _ _ e, e', sc', hclear, h => by
    simp only [Expr.resolve, gives_bind, gives_pure] at h
    obtain ⟨e₁, _, h₁, rfl, rfl⟩ := h
    obtain ⟨rfl, hscoped, hunbound⟩ := e.resolved hΓ hclear h₁
    exact ⟨rfl, hscoped, by rw [Expr.unbound, Expr.unbound, hunbound]⟩
  | .binary _ _ l r, e', sc', hclear, h | .logical _ _ l r, e', sc', hclear, h => by
    simp only [Expr.resolve, gives_bind, gives_pure] at h
    obtain ⟨l₁, _, hl, r₁, _, hr, rfl, rfl⟩ := h
    obtain ⟨rfl, hscopedl, hunboundl⟩ := l.resolved hΓ
      (fun ho => (Layers.clear_append.mp (hclear ho)).1) hl
    obtain ⟨rfl, hscopedr, hunboundr⟩ := r.resolved hΓ
      (fun ho => (Layers.clear_append.mp (hclear ho)).2) hr
    exact ⟨rfl, ⟨hscopedl, hscopedr⟩, by rw [Expr.unbound, Expr.unbound, hunboundl, hunboundr]⟩
  | .set _ _ l r, e', sc', hclear, h => by
    simp only [Expr.resolve, gives_bind, gives_pure] at h
    obtain ⟨r₁, _, hr, l₁, _, hl, rfl, rfl⟩ := h
    obtain ⟨rfl, hscopedr, hunboundr⟩ := r.resolved hΓ
      (fun ho => (Layers.clear_append.mp (hclear ho)).2) hr
    obtain ⟨rfl, hscopedl, hunboundl⟩ := l.resolved hΓ
      (fun ho => (Layers.clear_append.mp (hclear ho)).1) hl
    exact ⟨rfl, ⟨hscopedl, hscopedr⟩, by rw [Expr.unbound, Expr.unbound, hunboundl, hunboundr]⟩
  | .call _ callee arguments, e', sc', hclear, h => by
    simp only [Expr.resolve, gives_bind, gives_pure] at h
    obtain ⟨c₁, _, hc, as₁, _, has, rfl, rfl⟩ := h
    obtain ⟨rfl, hscopedc, hunboundc⟩ := callee.resolved hΓ
      (fun ho => (Layers.clear_append.mp (hclear ho)).1) hc
    obtain ⟨rfl, hscopeda, hunbounda⟩ := Expr.allResolved hΓ arguments
      (fun ho => (Layers.clear_append.mp (hclear ho)).2) has
    exact ⟨rfl, ⟨hscopedc, hscopeda⟩, by rw [Expr.unbound, Expr.unbound, hunboundc, hunbounda]⟩

theorem Expr.allResolved (hΓ : pending ≠ none → Γ ≠ []) : ∀ (es : List Expr) {es' : List Expr}
    {sc' : Scopes},
    (ordered → Layers.Clear Γ pending (Expr.allReferences es)) →
    Gives (Expr.resolveAll es) ⟨Layers.scopes Γ pending, k⟩ es' sc' →
    sc' = ⟨Layers.scopes Γ pending, k⟩ ∧ Expr.AllScoped ordered Γ pending es' ∧
      Expr.allUnbound es' = Expr.allUnbound es
  | [], es', sc', hclear, h => by
    rw [Expr.resolveAll, gives_pure] at h
    obtain ⟨rfl, rfl⟩ := h
    exact ⟨rfl, trivial, rfl⟩
  | e :: es, es', sc', hclear, h => by
    simp only [Expr.resolveAll, gives_bind, gives_pure] at h
    obtain ⟨e₁, _, h₁, es₁, _, hes, rfl, rfl⟩ := h
    obtain ⟨rfl, hscoped, hunbound⟩ := e.resolved hΓ
      (fun ho => (Layers.clear_append.mp (hclear ho)).1) h₁
    obtain ⟨rfl, hscopeds, hunbounds⟩ := Expr.allResolved hΓ es
      (fun ho => (Layers.clear_append.mp (hclear ho)).2) hes
    exact ⟨rfl, ⟨hscoped, hscopeds⟩, by
      rw [Expr.allUnbound, Expr.allUnbound, hunbound, hunbounds]⟩

end

end Expressions

/-! ## Order -/

/-- In an ordered program, the references of a statement can be resolved by their names: inside a
function its own name counts as declared, and no other statement refers to what it declares. -/
def Layers.Places (Γ : Layers) (s : Stmt) : Prop :=
  ∀ x ∈ s.references,
    Layers.Settled (Layers.bind s.ownName Γ) x ∧ (Γ ≠ [] → x ∈ s.declared → x ∈ s.ownName)

/-- The rest of the statements of the innermost scope, in an ordered program. -/
def Layers.Admits : Layers → List Stmt → Prop
  | [], _ => True
  | l :: Γ, ss =>
    Stmt.Sequenced ss ∧ (∀ x ∈ l.names, x ∈ l.bound ∨ x ∈ Stmt.allDeclared ss) ∧
      ∀ x ∈ Stmt.allReferences ss, x ∉ l.names → Layers.Settled Γ x

section Order

variable {Γ : Layers} {s : Stmt} {ss : List Stmt}

theorem Layers.settled_bind {xs : List String} {x : String} (h : Layers.Settled Γ x) :
    Layers.Settled (Layers.bind xs Γ) x := by
  cases Γ with
  | nil => trivial
  | cons l Γ =>
    rcases h with hbound | hpass
    · exact .inl (List.mem_append_right _ hbound)
    · by_cases hx : x ∈ xs
      · exact .inl (List.mem_append_left _ hx)
      · exact .inr hpass

theorem Layers.Admits.places (h : Layers.Admits Γ (s :: ss)) : Layers.Places Γ s := by
  intro x hx
  cases Γ with
  | nil => exact ⟨trivial, fun hne => absurd rfl hne⟩
  | cons l Γ =>
    obtain ⟨⟨hown, -⟩, hnames, houter⟩ := h
    refine ⟨?_, fun _ hd => hown x hx (List.mem_append_left _ hd)⟩
    by_cases hl : x ∈ l.names
    · rcases hnames x hl with hbound | hdeclared
      · exact .inl (List.mem_append_right _ hbound)
      · rw [Stmt.allDeclared_cons] at hdeclared
        exact .inl (List.mem_append_left _ (hown x hx hdeclared))
    · have houter := houter x (List.mem_append_left _ hx) hl
      exact Layers.settled_bind (.inr ⟨hl, houter⟩)

theorem Layers.Admits.tail (h : Layers.Admits Γ (s :: ss)) :
    Layers.Admits (Layers.bind s.declared Γ) ss := by
  cases Γ with
  | nil => trivial
  | cons l Γ =>
    obtain ⟨⟨-, hmore⟩, hnames, houter⟩ := h
    refine ⟨hmore, fun x hx => ?_, fun x hx => houter x (List.mem_append_right _ hx)⟩
    have hcases := hnames x hx
    rw [Stmt.allDeclared_cons, List.mem_append] at hcases
    rw [List.mem_append]
    tauto

theorem Layers.admits_cons {l : Layer} (hsequenced : Stmt.Sequenced ss)
    (hnames : ∀ x ∈ l.names, x ∈ l.bound ∨ x ∈ Stmt.allDeclared ss)
    (houter : ∀ x ∈ (Stmt.allReferences ss).filter (· ∉ l.names), Layers.Settled Γ x) :
    Layers.Admits (l :: Γ) ss := by
  refine ⟨hsequenced, hnames, fun x hx hl => houter x ?_⟩
  exact List.mem_filter.mpr ⟨hx, decide_eq_true hl⟩

end Order

/-! ## Statements -/

/-- What a walk over a statement gives, inside `k` functions. -/
structure Stmt.Resolved (ordered : Prop) (Γ : Layers) (k : Nat) (s s' : Stmt) (sc' : Scopes) :
    Prop where
  scopes : sc' = ⟨Layers.scopes (Layers.bind s.declared Γ) none, k⟩
  references : s'.Scoped ordered Γ
  unbound : s'.unbound = s.unbound
  returns : k = 0 → s'.NeverReturns

/-- What a walk over statements gives, inside `k` functions. -/
structure Stmt.AllResolved (ordered : Prop) (Γ : Layers) (k : Nat) (ss ss' : List Stmt)
    (sc' : Scopes) : Prop where
  scopes : sc' = ⟨Layers.scopes (ss.foldl (fun Γ s => Layers.bind s.declared Γ) Γ) none, k⟩
  references : Stmt.AllScoped ordered Γ ss'
  unbound : Stmt.allUnbound ss' = Stmt.allUnbound ss
  returns : k = 0 → Stmt.AllNeverReturn ss'

section Statements

variable {ordered : Prop}

theorem Layers.foldl_bind (l : Layer) (Γ : Layers) (ss : List Stmt) :
    ∃ l', ss.foldl (fun Γ s => Layers.bind s.declared Γ) (l :: Γ) = l' :: Γ := by
  induction ss generalizing l with
  | nil => exact ⟨l, rfl⟩
  | cons s ss ih => exact ih _

theorem Layers.scopes_tail (l : Layer) (Γ : Layers) (ss : List Stmt) :
    (Layers.scopes (ss.foldl (fun Γ s => Layers.bind s.declared Γ) (l :: Γ)) none).tail =
      Layers.scopes Γ none := by
  obtain ⟨l', hl'⟩ := Layers.foldl_bind l Γ ss
  rw [hl', Layers.scopes_none, Layers.scopes_none]
  rfl

theorem Stmt.declared_congr {s s' : Stmt} (h : s'.unbound = s.unbound) :
    s'.declared = s.declared ∧ s'.isDeclaration = s.isDeclaration := by
  rw [← s'.declared_unbound, ← s'.isDeclaration_unbound, h, s.declared_unbound,
    s.isDeclaration_unbound]
  exact ⟨rfl, rfl⟩

theorem Stmt.allDeclared_congr {ss ss' : List Stmt}
    (h : Stmt.allUnbound ss' = Stmt.allUnbound ss) :
    Stmt.allDeclared ss' = Stmt.allDeclared ss := by
  rw [← Stmt.allDeclared_unbound ss', h, Stmt.allDeclared_unbound]

theorem Layers.pending_ne_nil {Γ : Layers} {x : String} :
    Layers.pending Γ x ≠ none → Γ ≠ [] := by
  cases Γ <;> simp [Layers.pending]

theorem Layers.bind_declared {s : Stmt} (h : s.isDeclaration = false) (Γ : Layers) :
    Layers.bind s.declared Γ = Γ := by
  rw [Stmt.declared_of_isDeclaration h, Layers.bind_nil]

/-- What a walk over a body that is no declaration gives: the scopes are as before. -/
structure Stmt.PlainResolved (ordered : Prop) (Γ : Layers) (k : Nat) (s s' : Stmt)
    (sc' : Scopes) : Prop where
  scopes : sc' = ⟨Layers.scopes Γ none, k⟩
  plain : s'.isDeclaration = false
  references : s'.Scoped ordered Γ
  unbound : s'.unbound = s.unbound
  returns : k = 0 → s'.NeverReturns

/-- A body that is no declaration declares no names, so the innermost scope knows them all, and none
of them is among its references. -/
theorem Stmt.PlainResolved.of_resolved {Γ : Layers} {k : Nat} {s s' : Stmt} {sc' : Scopes}
    (hplain : s.isDeclaration = false)
    (hsettled : ordered → s.Ordered ∧ ∀ x ∈ s.references, Layers.Settled Γ x)
    (h : (∀ l ∈ Γ.head?, ∀ x ∈ s.declared, x ∈ l.names) →
      (ordered → s.Ordered ∧ Layers.Places Γ s) → Stmt.Resolved ordered Γ k s s' sc') :
    Stmt.PlainResolved ordered Γ k s s' sc' := by
  have hnone : s.declared = [] := Stmt.declared_of_isDeclaration hplain
  have hplaces : ordered → s.Ordered ∧ Layers.Places Γ s := fun hord =>
    ⟨(hsettled hord).1, fun x hx => ⟨Layers.settled_bind ((hsettled hord).2 x hx),
      fun _ hd => absurd (hnone ▸ hd) List.not_mem_nil⟩⟩
  obtain ⟨hscopes, hscoped, hunbound, hreturns⟩ :=
    h (fun l _ x hx => absurd (hnone ▸ hx) List.not_mem_nil) hplaces
  exact ⟨by rw [hscopes, Layers.bind_declared hplain],
    (Stmt.declared_congr hunbound).2.trans hplain, hscoped, hunbound, hreturns⟩

theorem Layers.Places.settled {Γ : Layers} {s : Stmt} (h : Layers.Places Γ s)
    (hown : s.ownName = []) : ∀ x ∈ s.references, Layers.Settled Γ x := by
  intro x hx
  have hsettled := (h x hx).1
  rwa [hown, Layers.bind_nil] at hsettled

theorem Layers.Places.admits_ofBlock {Γ : Layers} {line : Nat} {body : List Stmt}
    (h : Layers.Places Γ (.block line body)) (hsequenced : Stmt.Sequenced body) :
    Layers.Admits (.ofBlock body :: Γ) body :=
  Layers.admits_cons hsequenced (fun _ hx => .inr hx) (h.settled rfl)

theorem Layers.Places.admits_ofFunction {Γ : Layers} {line : Nat} {name : String}
    {params : List String} {body : List Stmt}
    (h : Layers.Places Γ (.function line name params body)) (hsequenced : Stmt.Sequenced body) :
    Layers.Admits (.ofFunction params body :: Layers.bind [name] Γ) body := by
  refine Layers.admits_cons hsequenced (fun x hx => ?_) fun x hx => (h x hx).1
  rcases List.mem_append.mp hx with hx | hx
  · exact .inl (List.mem_reverse.mpr hx)
  · exact .inr hx

theorem Layers.settled_ofLoop {Γ : Layers} {name : String} {references : List String}
    (h : ∀ x ∈ references.filter (· ≠ name), Layers.Settled Γ x) :
    ∀ x ∈ references, Layers.Settled (.ofLoop name :: Γ) x := by
  intro x hx
  by_cases hxname : x = name
  · exact .inl (hxname ▸ List.mem_singleton_self x)
  · exact .inr ⟨fun hmem => hxname (List.mem_singleton.mp hmem),
      h x (List.mem_filter.mpr ⟨hx, decide_eq_true hxname⟩)⟩

/-- In an ordered program the initialiser of a variable does not refer to it. -/
theorem Layers.Places.clear {Γ : Layers} {line : Nat} {name : String} {e : Expr}
    (h : Layers.Places Γ (.declare line name (some e))) :
    Layers.Clear Γ (Layers.pending Γ name) e.references := by
  intro x hx
  refine ⟨fun hpending => ?_, h.settled rfl x hx⟩
  have hne : Γ ≠ [] := Layers.pending_ne_nil (by rw [hpending]; nofun)
  obtain ⟨-, -, rfl⟩ := Option.map_eq_some_iff.mp hpending
  cases (h _ hx).2 hne List.mem_cons_self

theorem Expr.resolved_none (ordered : Prop) {Γ : Layers} {k : Nat} {e e' : Expr} {sc' : Scopes}
    (hsettled : ordered → ∀ x ∈ e.references, Layers.Settled Γ x)
    (h : Gives e.resolve ⟨Layers.scopes Γ none, k⟩ e' sc') :
    Expr.Resolved ordered Γ none k e e' sc' :=
  e.resolved (fun hne => absurd rfl hne) (fun ho x hx => ⟨nofun, hsettled ho x hx⟩) h

theorem Layers.push_scopes (Γ : Layers) (k : Nat) (names : List String) :
    Scopes.push ⟨Layers.scopes Γ none, k⟩ = ⟨Layers.scopes (⟨[], names⟩ :: Γ) none, k⟩ := by
  rw [Layers.scopes_none, Layers.scopes_none]
  rfl

theorem Layers.pop_scopes (l : Layer) (Γ : Layers) (k : Nat) (ss : List Stmt) :
    Scopes.pop ⟨Layers.scopes (ss.foldl (fun Γ s => Layers.bind s.declared Γ) (l :: Γ)) none, k⟩ =
      ⟨Layers.scopes Γ none, k⟩ := by
  rw [Scopes.pop, Layers.scopes_tail]

mutual

/-- **The walk over a statement** declares what the statement declares and binds all references. -/
theorem Stmt.resolved : ∀ (s : Stmt) {Γ : Layers} {k : Nat} {s' : Stmt} {sc' : Scopes},
    s.WellFormed → (∀ l ∈ Γ.head?, ∀ x ∈ s.declared, x ∈ l.names) →
    (ordered → s.Ordered ∧ Layers.Places Γ s) →
    Gives s.resolve ⟨Layers.scopes Γ none, k⟩ s' sc' → Stmt.Resolved ordered Γ k s s' sc'
  | .block line body, Γ, k, s', sc', hwell, hnames, ho, h => by
    simp only [Stmt.resolve, gives_bind, gives_change, gives_pure] at h
    obtain ⟨-, _, rfl, body', _, hbody, -, _, rfl, rfl, rfl⟩ := h
    rw [Layers.push_scopes Γ k (Stmt.allDeclared body)] at hbody
    obtain ⟨rfl, hscoped, hunbound, hreturns⟩ := Stmt.allResolved body hwell
      (by rintro _ ⟨⟩ x hx; exact hx)
      (fun hord => ⟨(ho hord).1.2, (ho hord).2.admits_ofBlock (ho hord).1.1⟩) hbody
    refine ⟨?_, ?_, by rw [Stmt.unbound, Stmt.unbound, hunbound], hreturns⟩
    · rw [Layers.pop_scopes, Layers.bind_declared rfl]
    · rw [Stmt.Scoped, Layer.ofBlock, Stmt.allDeclared_congr hunbound]
      exact hscoped
  | .expression line e, Γ, k, s', sc', hwell, hnames, ho, h => by
    simp only [Stmt.resolve, gives_bind, gives_pure] at h
    obtain ⟨e', _, he, rfl, rfl⟩ := h
    obtain ⟨rfl, hscoped, hunbound⟩ := e.resolved_none ordered
      (fun hord => (ho hord).2.settled rfl) he
    refine ⟨?_, hscoped, by rw [Stmt.unbound, Stmt.unbound, hunbound], fun _ => trivial⟩
    rw [Layers.bind_declared rfl]
  | .function line name params body, Γ, k, s', sc', hwell, hnames, ho, h => by
    simp only [Stmt.resolve, gives_bind, gives_change, gives_pure] at h
    obtain ⟨_, _, hname, _, _, rfl, _, _, hparams, body', _, hbody, _, _, rfl, rfl, rfl⟩ := h
    obtain ⟨hfresh, rfl⟩ := Layers.introduce_scopes hname
    have hpush : (Scopes.enterFunction ⟨Layers.scopes (Layers.bind [name] Γ) none, k⟩).push =
        ⟨Layers.scopes (⟨[], params ++ Stmt.allDeclared body⟩ :: Layers.bind [name] Γ) none,
          k + 1⟩ := Layers.push_scopes _ _ _
    rw [hpush] at hparams
    obtain ⟨-, hnodup, rfl⟩ := Layers.introduceAll_scopes hparams
    rw [List.append_nil] at hbody
    obtain ⟨rfl, hscoped, hunbound, -⟩ := Stmt.allResolved body hwell.2
      (by rintro _ ⟨⟩ x hx; exact List.mem_append_right _ hx)
      (fun hord => ⟨(ho hord).1.2, (ho hord).2.admits_ofFunction (ho hord).1.1⟩) hbody
    refine ⟨?_, ⟨fun l hl => ⟨hfresh l hl, hnames l hl name List.mem_cons_self⟩, hnodup, ?_⟩,
      by rw [Stmt.unbound, Stmt.unbound, hunbound], fun _ => trivial⟩
    · rw [Layers.pop_scopes]
      rfl
    · rw [Layer.ofFunction, Stmt.allDeclared_congr hunbound]
      exact hscoped
  | .ifThen line c body, Γ, k, s', sc', hwell, hnames, ho, h
  | .whileLoop line c body, Γ, k, s', sc', hwell, hnames, ho, h => by
    simp only [Stmt.resolve, gives_bind, gives_pure] at h
    obtain ⟨c', _, hc, body', _, hbody, rfl, rfl⟩ := h
    have hsettled := fun hord => List.forall_mem_append.mp ((ho hord).2.settled rfl)
    obtain ⟨rfl, hscopedc, hunboundc⟩ := c.resolved_none ordered
      (fun hord => (hsettled hord).1) hc
    obtain ⟨rfl, hplain, hscoped, hunbound, hreturns⟩ := Stmt.PlainResolved.of_resolved hwell.2.1.1
      (fun hord => ⟨(ho hord).1, (hsettled hord).2⟩)
      fun hnames hplaces => body.resolved hwell.2.2 hnames hplaces hbody
    refine ⟨?_, ⟨hscopedc, hplain, hscoped⟩,
      by rw [Stmt.unbound, Stmt.unbound, hunboundc, hunbound], hreturns⟩
    rw [Layers.bind_declared rfl]
  | .ifElse line c yes no, Γ, k, s', sc', hwell, hnames, ho, h => by
    simp only [Stmt.resolve, gives_bind, gives_pure] at h
    obtain ⟨c', _, hc, yes', _, hyes, no', _, hno, rfl, rfl⟩ := h
    obtain ⟨-, hyesPlain, hwellYes, -, hnoPlain, hwellNo⟩ := hwell
    have hsettled := fun hord => List.forall_mem_append.mp ((ho hord).2.settled rfl)
    have hsettled' := fun hord => List.forall_mem_append.mp (hsettled hord).1
    obtain ⟨rfl, hscopedc, hunboundc⟩ := c.resolved_none ordered
      (fun hord => (hsettled' hord).1) hc
    obtain ⟨rfl, hplain, hscoped, hunbound, hreturns⟩ := Stmt.PlainResolved.of_resolved hyesPlain.1
      (fun hord => ⟨(ho hord).1.1, (hsettled' hord).2⟩)
      fun hnames hplaces => yes.resolved hwellYes hnames hplaces hyes
    obtain ⟨rfl, hplain', hscoped', hunbound', hreturns'⟩ := Stmt.PlainResolved.of_resolved hnoPlain
      (fun hord => ⟨(ho hord).1.2, (hsettled hord).2⟩)
      fun hnames hplaces => no.resolved hwellNo hnames hplaces hno
    refine ⟨?_, ⟨hscopedc, ⟨hplain, hscoped⟩, hplain', hscoped'⟩,
      by rw [Stmt.unbound, Stmt.unbound, hunboundc, hunbound, hunbound'],
      fun hk => ⟨hreturns hk, hreturns' hk⟩⟩
    rw [Layers.bind_declared rfl]
  | .giveBack line none, Γ, k, s', sc', hwell, hnames, ho, h => by
    simp only [Stmt.resolve, Expr.resolveOption, gives_bind, gives_check, gives_pure] at h
    obtain ⟨_, _, hleave, _, _, ⟨rfl, rfl⟩, rfl, rfl⟩ := h
    obtain ⟨hk, rfl⟩ := Layers.leave_scopes hleave
    exact ⟨by rw [Layers.bind_declared rfl], trivial, rfl, fun hzero => absurd hzero hk⟩
  | .giveBack line (some e), Γ, k, s', sc', hwell, hnames, ho, h => by
    simp only [Stmt.resolve, Expr.resolveOption, gives_bind, gives_check, gives_pure] at h
    obtain ⟨_, _, hleave, _, _, ⟨e', _, he, rfl, rfl⟩, rfl, rfl⟩ := h
    obtain ⟨hk, rfl⟩ := Layers.leave_scopes hleave
    obtain ⟨rfl, hscoped, hunbound⟩ := e.resolved_none ordered
      (fun hord => (ho hord).2.settled rfl) he
    exact ⟨by rw [Layers.bind_declared rfl], hscoped, congrArg (Stmt.giveBack line ∘ some) hunbound,
      fun hzero => absurd hzero hk⟩
  | .declare line name none, Γ, k, s', sc', hwell, hnames, ho, h => by
    simp only [Stmt.resolve, Expr.resolveOption, gives_bind, gives_check, gives_change,
      gives_pure] at h
    obtain ⟨_, _, hdeclare, _, _, ⟨rfl, rfl⟩, _, _, rfl, rfl, rfl⟩ := h
    obtain ⟨hfresh, rfl⟩ := Layers.declare_scopes hdeclare
    exact ⟨Layers.define_scopes hfresh,
      fun l hl => ⟨hfresh l hl, hnames l hl name List.mem_cons_self⟩, rfl, fun _ => trivial⟩
  | .declare line name (some e), Γ, k, s', sc', hwell, hnames, ho, h => by
    simp only [Stmt.resolve, Expr.resolveOption, gives_bind, gives_check, gives_change,
      gives_pure] at h
    obtain ⟨_, _, hdeclare, _, _, ⟨e', _, he, rfl, rfl⟩, _, _, rfl, rfl, rfl⟩ := h
    obtain ⟨hfresh, rfl⟩ := Layers.declare_scopes hdeclare
    obtain ⟨rfl, hscoped, hunbound⟩ := e.resolved Layers.pending_ne_nil
      (fun hord => (ho hord).2.clear) he
    exact ⟨Layers.define_scopes hfresh,
      ⟨fun l hl => ⟨hfresh l hl, hnames l hl name List.mem_cons_self⟩, hscoped⟩,
      congrArg (Stmt.declare line name ∘ some) hunbound, fun _ => trivial⟩
  | .forLoop line name e body, Γ, k, s', sc', hwell, hnames, ho, h => by
    simp only [Stmt.resolve, gives_bind, gives_change, gives_pure] at h
    obtain ⟨e', _, he, _, _, rfl, _, _, hname, body', _, hbody, _, _, rfl, rfl, rfl⟩ := h
    have hsettled := fun hord => List.forall_mem_append.mp ((ho hord).2.settled rfl)
    obtain ⟨rfl, hscopede, hunbounde⟩ := e.resolved_none ordered
      (fun hord => (hsettled hord).1) he
    rw [Layers.push_scopes Γ k [name]] at hname
    obtain ⟨-, rfl⟩ := Layers.introduce_scopes hname
    obtain ⟨rfl, hplain, hscoped, hunbound, hreturns⟩ :=
      Stmt.PlainResolved.of_resolved (Γ := .ofLoop name :: Γ) hwell.2.1.1
        (fun hord => ⟨(ho hord).1, Layers.settled_ofLoop (hsettled hord).2⟩)
        fun hnames hplaces => body.resolved hwell.2.2 hnames hplaces hbody
    refine ⟨?_, ⟨hscopede, hplain, hscoped⟩,
      by rw [Stmt.unbound, Stmt.unbound, hunbounde, hunbound], hreturns⟩
    rw [Layers.bind_declared rfl]
    exact Layers.pop_scopes (.ofLoop name) Γ k []

theorem Stmt.allResolved : ∀ (ss : List Stmt) {Γ : Layers} {k : Nat} {ss' : List Stmt}
    {sc' : Scopes},
    Stmt.AllWellFormed ss → (∀ l ∈ Γ.head?, ∀ x ∈ Stmt.allDeclared ss, x ∈ l.names) →
    (ordered → Stmt.AllOrdered ss ∧ Layers.Admits Γ ss) →
    Gives (Stmt.resolveAll ss) ⟨Layers.scopes Γ none, k⟩ ss' sc' →
    Stmt.AllResolved ordered Γ k ss ss' sc'
  | [], Γ, k, ss', sc', hwell, hnames, ho, h => by
    rw [Stmt.resolveAll, gives_pure] at h
    obtain ⟨rfl, rfl⟩ := h
    exact ⟨rfl, trivial, rfl, fun _ => trivial⟩
  | s :: ss, Γ, k, ss', sc', hwell, hnames, ho, h => by
    simp only [Stmt.resolveAll, gives_bind, gives_pure] at h
    obtain ⟨s₁, _, hs, ss₁, _, hss, rfl, rfl⟩ := h
    rw [Stmt.allDeclared_cons] at hnames
    obtain ⟨rfl, hscoped, hunbound, hreturns⟩ := s.resolved hwell.1
      (fun l hl x hx => hnames l hl x (List.mem_append_left _ hx))
      (fun hord => ⟨(ho hord).1.1, (ho hord).2.places⟩) hs
    have hnames' : ∀ l ∈ (Layers.bind s.declared Γ).head?, ∀ x ∈ Stmt.allDeclared ss,
        x ∈ l.names := by
      cases Γ with
      | nil => nofun
      | cons l Γ =>
        rintro _ ⟨⟩ x hx
        exact hnames l rfl x (List.mem_append_right _ hx)
    obtain ⟨rfl, hscopeds, hunbounds, hreturnss⟩ := Stmt.allResolved ss hwell.2 hnames'
      (fun hord => ⟨(ho hord).1.2, (ho hord).2.tail⟩) hss
    rw [← (Stmt.declared_congr hunbound).1] at hscopeds
    exact ⟨rfl, ⟨hscoped, hscopeds⟩, by
      rw [Stmt.allUnbound, Stmt.allUnbound, hunbound, hunbounds],
      fun hk => ⟨hreturns hk, hreturnss hk⟩⟩

end

end Statements

/-! ## Programs -/

/-- **A program that passes scope analysis is scoped.** It differs from what was analysed in its
bindings only, and nothing is given back outside functions. -/
theorem allScoped_of_resolve {ordered : Prop} {ss ss' : List Stmt} (hwell : Stmt.AllWellFormed ss)
    (ho : ordered → Stmt.AllOrdered ss) (h : resolve ss = (ss', none)) :
    Stmt.AllScoped ordered [] ss' ∧ Stmt.allUnbound ss' = Stmt.allUnbound ss ∧
      Stmt.AllNeverReturn ss' := by
  have hgives : ∃ sc', Gives (Stmt.resolveAll ss) ⟨Layers.scopes [] none, 0⟩ ss' sc' := by
    unfold resolve at h
    split at h
    · rename_i sc' hrun
      cases h
      exact ⟨sc', hrun⟩
    · cases h
  obtain ⟨sc', hgives⟩ := hgives
  obtain ⟨-, hscoped, hunbound, hreturns⟩ := Stmt.allResolved ss (Γ := []) hwell nofun
    (fun hord => ⟨ho hord, trivial⟩) hgives
  exact ⟨hscoped, hunbound, hreturns rfl⟩

end Scriptlet
