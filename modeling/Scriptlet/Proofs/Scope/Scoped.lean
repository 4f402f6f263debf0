import Scriptlet.Proofs.Tree.Unbound

/-!
# Where variables are bound

At each place of a program some scopes are open. Of a scope it matters which names are declared so
far, since these can be referred to, and which names are declared in it at all, since its frame may
bind these by the time a function that was made here is called.

* `Layer`, `Layers`: a scope at some place, and the scopes around a place.
* `Expr.Scoped`, `Stmt.Scoped`: **every reference is bound where its name was declared last**, and
  no scope declares a name twice. If in addition the program is ordered, then no scope passed by
  on the way outward declares the name later on.
* `Expr.references`, `Stmt.references`: the names that a tree refers to outside its own scopes.
* `Stmt.Ordered`: **names are referred to after their declarations** only.
* `Stmt.NeverReturns`: nothing is given back outside all functions.
-/

namespace Scriptlet

/-! ## Scopes at a place -/

/-- A scope at some place of a program: the names declared so far, last one first, and the names
that are declared in it anywhere. -/
structure Layer where
  bound : List String
  names : List String

/-- The scopes around a place, innermost first. Globals are in no scope. -/
abbrev Layers : Type := List Layer

namespace Layers

/-- The innermost scope in which a name is declared so far. -/
def find (Γ : Layers) (x : String) : Binding :=
  match Γ.findIdx? (fun l => decide (x ∈ l.bound)) with
  | some distance => .enclosing distance
  | none => .toplevel

/-- The scope in which a name is found while `pending` is being initialised. -/
def target (Γ : Layers) (pending : Option String) (x : String) : Binding :=
  if pending = some x then .enclosing 0 else Layers.find Γ x

/-- Going outward, a name is declared so far in the first scope that declares it at all. -/
def Settled : Layers → String → Prop
  | [], _ => True
  | l :: Γ, x => x ∈ l.bound ∨ x ∉ l.names ∧ Settled Γ x

/-- After a declaration of names in the innermost scope. -/
def bind (xs : List String) : Layers → Layers
  | [] => []
  | l :: Γ => ⟨xs ++ l.bound, l.names⟩ :: Γ

/-- A name that the innermost scope declares, but not yet. -/
def Fresh (Γ : Layers) (x : String) : Prop := ∀ l ∈ Γ.head?, x ∉ l.bound ∧ x ∈ l.names

/-- The name that cannot be read while it is being initialised; globals always can. -/
def pending (Γ : Layers) (x : String) : Option String := Γ.head?.map fun _ => x

theorem bind_nil (Γ : Layers) : Layers.bind [] Γ = Γ := by cases Γ <;> rfl

end Layers

/-! ## References and declarations -/

mutual

/-- The names that an expression refers to. -/
def Expr.references : Expr → List String
  | .literal .. => []
  | .var _ name _ => [name]
  | .assign _ name _ value => name :: value.references
  | .get _ _ e | .group _ e | .unary _ _ e => e.references
  | .binary _ _ l r | .logical _ _ l r | .set _ _ l r => l.references ++ r.references
  | .call _ callee arguments => callee.references ++ Expr.allReferences arguments

def Expr.allReferences : List Expr → List String
  | [] => []
  | e :: es => e.references ++ Expr.allReferences es

end

/-- The name that a statement declares in the scope it stands in. -/
def Stmt.declared : Stmt → List String
  | .function _ name _ _ | .declare _ name _ => [name]
  | _ => []

/-- The names that statements declare in the scope they stand in. -/
def Stmt.allDeclared (ss : List Stmt) : List String := ss.flatMap Stmt.declared

mutual

/-- The names that a statement refers to, at any depth, other than those of scopes inside it. -/
def Stmt.references : Stmt → List String
  | .block _ body => (Stmt.allReferences body).filter (· ∉ Stmt.allDeclared body)
  | .expression _ e => e.references
  | .function _ _ params body =>
    (Stmt.allReferences body).filter (· ∉ params ++ Stmt.allDeclared body)
  | .ifThen _ c s | .whileLoop _ c s => c.references ++ s.references
  | .ifElse _ c yes no => c.references ++ yes.references ++ no.references
  | .giveBack _ none | .declare _ _ none => []
  | .giveBack _ (some e) | .declare _ _ (some e) => e.references
  | .forLoop _ name e body => e.references ++ body.references.filter (· ≠ name)

def Stmt.allReferences : List Stmt → List String
  | [] => []
  | s :: ss => s.references ++ Stmt.allReferences ss

end

/-- The name that a statement may refer to although it declares it: that of a function. -/
def Stmt.ownName : Stmt → List String
  | .function _ name _ _ => [name]
  | _ => []

/-- In the statements of a scope, no name is referred to before its declaration ends, except that of
a function inside the function. -/
def Stmt.Sequenced : List Stmt → Prop
  | [] => True
  | s :: ss =>
    (∀ x ∈ s.references, x ∈ s.declared ++ Stmt.allDeclared ss → x ∈ s.ownName) ∧
      Stmt.Sequenced ss

mutual

/-- **In every scope, names are referred to after their declarations only.** -/
def Stmt.Ordered : Stmt → Prop
  | .block _ body | .function _ _ _ body => Stmt.Sequenced body ∧ Stmt.AllOrdered body
  | .ifThen _ _ s | .whileLoop _ _ s | .forLoop _ _ _ s => s.Ordered
  | .ifElse _ _ yes no => yes.Ordered ∧ no.Ordered
  | .expression .. | .giveBack .. | .declare .. => True

def Stmt.AllOrdered : List Stmt → Prop
  | [] => True
  | s :: ss => s.Ordered ∧ Stmt.AllOrdered ss

end

/-! ## Scoped trees -/

mutual

/-- Every reference of an expression is bound to the innermost scope that has declared its name;
only an assignment may refer to the name that is being initialised. In an `ordered` program the
scopes passed by do not declare the name. -/
def Expr.Scoped (ordered : Prop) (Γ : Layers) (pending : Option String) : Expr → Prop
  | .literal .. => True
  | .var _ name binding =>
    pending ≠ some name ∧ binding = Layers.find Γ name ∧ (ordered → Layers.Settled Γ name)
  | .assign _ name binding value =>
    value.Scoped ordered Γ pending ∧ binding = Layers.target Γ pending name ∧
      (ordered → pending ≠ some name ∧ Layers.Settled Γ name)
  | .get _ _ e | .group _ e | .unary _ _ e => e.Scoped ordered Γ pending
  | .binary _ _ l r | .logical _ _ l r | .set _ _ l r =>
    l.Scoped ordered Γ pending ∧ r.Scoped ordered Γ pending
  | .call _ callee arguments =>
    callee.Scoped ordered Γ pending ∧ Expr.AllScoped ordered Γ pending arguments

def Expr.AllScoped (ordered : Prop) (Γ : Layers) (pending : Option String) : List Expr → Prop
  | [] => True
  | e :: es => e.Scoped ordered Γ pending ∧ Expr.AllScoped ordered Γ pending es

end

/-- The scope of a function at the start of its body. -/
def Layer.ofFunction (params : List String) (body : List Stmt) : Layer :=
  ⟨params.reverse, params ++ Stmt.allDeclared body⟩

/-- The scope of a block at its start. -/
def Layer.ofBlock (body : List Stmt) : Layer := ⟨[], Stmt.allDeclared body⟩

/-- The scope around the body of a loop. -/
def Layer.ofLoop (name : String) : Layer := ⟨[name], [name]⟩

mutual

/-- Every reference of a statement is bound to the innermost scope that has declared its name, no
name is declared twice in one scope, and declarations stand in blocks and functions only. -/
def Stmt.Scoped (ordered : Prop) (Γ : Layers) : Stmt → Prop
  | .block _ body => Stmt.AllScoped ordered (.ofBlock body :: Γ) body
  | .expression _ e => e.Scoped ordered Γ none
  | .function _ name params body =>
    Layers.Fresh Γ name ∧ params.Nodup ∧
      Stmt.AllScoped ordered (.ofFunction params body :: Layers.bind [name] Γ) body
  | .ifThen _ c s | .whileLoop _ c s =>
    c.Scoped ordered Γ none ∧ s.isDeclaration = false ∧ s.Scoped ordered Γ
  | .ifElse _ c yes no =>
    c.Scoped ordered Γ none ∧ (yes.isDeclaration = false ∧ yes.Scoped ordered Γ) ∧
      no.isDeclaration = false ∧ no.Scoped ordered Γ
  | .giveBack _ none => True
  | .giveBack _ (some e) => e.Scoped ordered Γ none
  | .declare _ name none => Layers.Fresh Γ name
  | .declare _ name (some e) =>
    Layers.Fresh Γ name ∧ e.Scoped ordered Γ (Layers.pending Γ name)
  | .forLoop _ name e body =>
    e.Scoped ordered Γ none ∧ body.isDeclaration = false ∧
      body.Scoped ordered (.ofLoop name :: Γ)

/-- Each statement is scoped after the declarations before it. -/
def Stmt.AllScoped (ordered : Prop) (Γ : Layers) : List Stmt → Prop
  | [] => True
  | s :: ss => s.Scoped ordered Γ ∧ Stmt.AllScoped ordered (Layers.bind s.declared Γ) ss

end

mutual

/-- Nothing is given back outside the functions of a statement. -/
def Stmt.NeverReturns : Stmt → Prop
  | .block _ body => Stmt.AllNeverReturn body
  | .ifThen _ _ s | .whileLoop _ _ s | .forLoop _ _ _ s => s.NeverReturns
  | .ifElse _ _ yes no => yes.NeverReturns ∧ no.NeverReturns
  | .giveBack .. => False
  | .expression .. | .function .. | .declare .. => True

def Stmt.AllNeverReturn : List Stmt → Prop
  | [] => True
  | s :: ss => s.NeverReturns ∧ Stmt.AllNeverReturn ss

end

/-! ## Bindings do not matter to declarations -/

theorem Stmt.declared_unbound (s : Stmt) : s.unbound.declared = s.declared := by cases s <;> rfl

theorem Stmt.isDeclaration_unbound (s : Stmt) : s.unbound.isDeclaration = s.isDeclaration := by
  cases s <;> rfl

theorem Stmt.declared_of_isDeclaration {s : Stmt} (h : s.isDeclaration = false) :
    s.declared = [] := by
  cases s <;> first | rfl | cases h

theorem Stmt.allDeclared_cons (s : Stmt) (ss : List Stmt) :
    Stmt.allDeclared (s :: ss) = s.declared ++ Stmt.allDeclared ss :=
  List.flatMap_cons

theorem Stmt.allDeclared_unbound (ss : List Stmt) :
    Stmt.allDeclared (Stmt.allUnbound ss) = Stmt.allDeclared ss := by
  induction ss with
  | nil => rfl
  | cons s ss ih =>
    rw [Stmt.allUnbound, Stmt.allDeclared_cons, Stmt.allDeclared_cons, Stmt.declared_unbound, ih]

end Scriptlet
