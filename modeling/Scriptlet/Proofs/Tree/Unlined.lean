import Scriptlet.Proofs.Grammar.Writing

/-!
# Trees without lines

Two trees are equal up to lines if they are the same once every line is erased. The erasure is
defined over what becomes of the constants, so that it also describes trees in which some of them
have become names.

* `Expr.unlinedWith`, `Stmt.unlinedWith`: a tree without lines, each constant replaced;
  `Stmt.unlined`: a program without lines, all else kept.
* `Expr.literals`, `Stmt.literals`: the constants of a tree;
  **`Stmt.unlinedWith_eq_iff`**: two replacements agree on a tree exactly if they agree on its
  constants.
* `Stmt.wellFormed_unlinedWith`, `Stmt.depth_unlinedWith`: neither lines nor constants matter to
  how a tree can be written.
-/

namespace Scriptlet

/-! ## Definitions -/

mutual

/-- The expression without lines, each constant `v` replaced by `f v`. -/
def Expr.unlinedWith (f : Literal → Expr) : Expr → Expr
  | .assign _ name binding value => .assign 0 name binding (value.unlinedWith f)
  | .binary _ op left right => .binary 0 op (left.unlinedWith f) (right.unlinedWith f)
  | .call _ callee arguments => .call 0 (callee.unlinedWith f) (Expr.allUnlinedWith f arguments)
  | .get _ name object => .get 0 name (object.unlinedWith f)
  | .group _ inner => .group 0 (inner.unlinedWith f)
  | .literal _ value => f value
  | .logical _ op left right => .logical 0 op (left.unlinedWith f) (right.unlinedWith f)
  | .set _ name object value => .set 0 name (object.unlinedWith f) (value.unlinedWith f)
  | .unary _ op operand => .unary 0 op (operand.unlinedWith f)
  | .var _ name binding => .var 0 name binding

def Expr.allUnlinedWith (f : Literal → Expr) : List Expr → List Expr
  | [] => []
  | e :: es => e.unlinedWith f :: Expr.allUnlinedWith f es

end

mutual

/-- The constants of an expression. -/
def Expr.literals : Expr → List Literal
  | .literal _ value => [value]
  | .var .. => []
  | .assign _ _ _ e | .get _ _ e | .group _ e | .unary _ _ e => e.literals
  | .binary _ _ l r | .logical _ _ l r | .set _ _ l r => l.literals ++ r.literals
  | .call _ callee arguments => callee.literals ++ Expr.allLiterals arguments

def Expr.allLiterals : List Expr → List Literal
  | [] => []
  | e :: es => e.literals ++ Expr.allLiterals es

end

mutual

/-- The statement without lines, each constant `v` replaced by `f v`. -/
def Stmt.unlinedWith (f : Literal → Expr) : Stmt → Stmt
  | .block _ body => .block 0 (Stmt.allUnlinedWith f body)
  | .expression _ e => .expression 0 (e.unlinedWith f)
  | .function _ name params body => .function 0 name params (Stmt.allUnlinedWith f body)
  | .ifThen _ c yes => .ifThen 0 (c.unlinedWith f) (yes.unlinedWith f)
  | .ifElse _ c yes no => .ifElse 0 (c.unlinedWith f) (yes.unlinedWith f) (no.unlinedWith f)
  | .giveBack _ value => .giveBack 0 (value.map (·.unlinedWith f))
  | .declare _ name initial => .declare 0 name (initial.map (·.unlinedWith f))
  | .whileLoop _ c body => .whileLoop 0 (c.unlinedWith f) (body.unlinedWith f)
  | .forLoop _ name e body => .forLoop 0 name (e.unlinedWith f) (body.unlinedWith f)

def Stmt.allUnlinedWith (f : Literal → Expr) : List Stmt → List Stmt
  | [] => []
  | s :: ss => s.unlinedWith f :: Stmt.allUnlinedWith f ss

end

/-- A program without lines. -/
def Stmt.unlined (program : List Stmt) : List Stmt := Stmt.allUnlinedWith (.literal 0) program

mutual

/-- The constants of a statement. -/
def Stmt.literals : Stmt → List Literal
  | .block _ body | .function _ _ _ body => Stmt.allLiterals body
  | .expression _ e => e.literals
  | .ifThen _ c yes => c.literals ++ yes.literals
  | .ifElse _ c yes no => c.literals ++ yes.literals ++ no.literals
  | .giveBack _ none | .declare _ _ none => []
  | .giveBack _ (some e) | .declare _ _ (some e) => e.literals
  | .whileLoop _ c body => c.literals ++ body.literals
  | .forLoop _ _ e body => e.literals ++ body.literals

def Stmt.allLiterals : List Stmt → List Literal
  | [] => []
  | s :: ss => s.literals ++ Stmt.allLiterals ss

end

/-! ## Equality of replacements -/

mutual

theorem Expr.unlinedWith_eq_iff {f g : Literal → Expr} :
    ∀ e : Expr, e.unlinedWith f = e.unlinedWith g ↔ ∀ v ∈ e.literals, f v = g v
  | .literal .. | .var .. => by simp [Expr.unlinedWith, Expr.literals]
  | .assign _ _ _ e | .get _ _ e | .group _ e | .unary _ _ e => by
    simp [Expr.unlinedWith, Expr.literals, Expr.unlinedWith_eq_iff e]
  | .binary _ _ l r | .logical _ _ l r | .set _ _ l r => by
    simp [Expr.unlinedWith, Expr.literals, Expr.unlinedWith_eq_iff l, Expr.unlinedWith_eq_iff r,
      or_imp, forall_and]
  | .call _ callee arguments => by
    simp [Expr.unlinedWith, Expr.literals, Expr.unlinedWith_eq_iff callee,
      Expr.allUnlinedWith_eq_iff arguments, or_imp, forall_and]

theorem Expr.allUnlinedWith_eq_iff {f g : Literal → Expr} :
    ∀ es : List Expr, Expr.allUnlinedWith f es = Expr.allUnlinedWith g es ↔
      ∀ v ∈ Expr.allLiterals es, f v = g v
  | [] => by simp [Expr.allUnlinedWith, Expr.allLiterals]
  | e :: es => by
    simp [Expr.allUnlinedWith, Expr.allLiterals, Expr.unlinedWith_eq_iff e,
      Expr.allUnlinedWith_eq_iff es, or_imp, forall_and]

end

mutual

theorem Stmt.unlinedWith_eq_iff {f g : Literal → Expr} :
    ∀ s : Stmt, s.unlinedWith f = s.unlinedWith g ↔ ∀ v ∈ s.literals, f v = g v
  | .block _ body | .function _ _ _ body => by
    simp [Stmt.unlinedWith, Stmt.literals, Stmt.allUnlinedWith_eq_iff body]
  | .expression _ e | .giveBack _ (some e) | .declare _ _ (some e) => by
    simp [Stmt.unlinedWith, Stmt.literals, Expr.unlinedWith_eq_iff e]
  | .giveBack _ none | .declare _ _ none => by simp [Stmt.unlinedWith, Stmt.literals]
  | .ifThen _ e s | .whileLoop _ e s | .forLoop _ _ e s => by
    simp [Stmt.unlinedWith, Stmt.literals, Expr.unlinedWith_eq_iff e, Stmt.unlinedWith_eq_iff s,
      or_imp, forall_and]
  | .ifElse _ c yes no => by
    simp [Stmt.unlinedWith, Stmt.literals, Expr.unlinedWith_eq_iff c, Stmt.unlinedWith_eq_iff yes,
      Stmt.unlinedWith_eq_iff no, or_imp, forall_and]

/-- **Two replacements agree on a program exactly if they agree on its constants.** -/
theorem Stmt.allUnlinedWith_eq_iff {f g : Literal → Expr} :
    ∀ ss : List Stmt, Stmt.allUnlinedWith f ss = Stmt.allUnlinedWith g ss ↔
      ∀ v ∈ Stmt.allLiterals ss, f v = g v
  | [] => by simp [Stmt.allUnlinedWith, Stmt.allLiterals]
  | s :: ss => by
    simp [Stmt.allUnlinedWith, Stmt.allLiterals, Stmt.unlinedWith_eq_iff s,
      Stmt.allUnlinedWith_eq_iff ss, or_imp, forall_and]

end

/-! ## Well-formedness -/

/-- Constants and names. -/
inductive Expr.IsAtom : Expr → Prop
  | literal {line : Nat} {value : Literal} : IsAtom (.literal line value)
  | var {line : Nat} {name : String} {binding : Binding} : IsAtom (.var line name binding)

theorem Expr.IsAtom.level {e : Expr} (h : e.IsAtom) : e.level = 9 := by cases h <;> rfl

theorem Expr.IsAtom.attaches {e : Expr} (h : e.IsAtom) : e.attaches = false := by cases h <;> rfl

theorem Expr.IsAtom.depth {e : Expr} (h : e.IsAtom) : e.depth = 0 := by cases h <;> rfl

theorem Expr.IsAtom.wellFormed {e : Expr} (h : e.IsAtom) : e.WellFormed := by cases h <;> trivial

variable {f : Literal → Expr}

theorem Expr.level_unlinedWith (hf : ∀ v, (f v).IsAtom) (e : Expr) :
    (e.unlinedWith f).level = e.level := by
  cases e with
  | literal _ v => exact (hf v).level
  | _ => rfl

theorem Expr.attaches_unlinedWith (hf : ∀ v, (f v).IsAtom) :
    ∀ e : Expr, (e.unlinedWith f).attaches = e.attaches
  | .literal _ v => (hf v).attaches
  | .var .. | .assign .. | .group .. | .unary .. => rfl
  | .binary _ _ e _ | .logical _ _ e _ | .call _ e _ | .get _ _ e | .set _ _ e _ =>
    Expr.attaches_unlinedWith hf e

theorem Expr.length_allUnlinedWith (es : List Expr) :
    (Expr.allUnlinedWith f es).length = es.length := by
  induction es with
  | nil => rfl
  | cons e es ih => exact congrArg (· + 1) ih

mutual

theorem Expr.depth_unlinedWith (hf : ∀ v, (f v).IsAtom) :
    ∀ e : Expr, (e.unlinedWith f).depth = e.depth
  | .literal _ v => (hf v).depth
  | .var .. => rfl
  | .assign _ _ _ e | .get _ _ e | .group _ e | .unary _ _ e => by
    simp [Expr.unlinedWith, Expr.depth, Expr.depth_unlinedWith hf e]
  | .binary _ _ l r | .logical _ _ l r | .set _ _ l r => by
    simp [Expr.unlinedWith, Expr.depth, Expr.depth_unlinedWith hf l, Expr.depth_unlinedWith hf r]
  | .call _ callee arguments => by
    simp [Expr.unlinedWith, Expr.depth, Expr.depth_unlinedWith hf callee,
      Expr.argumentDepth_unlinedWith hf arguments]

theorem Expr.argumentDepth_unlinedWith (hf : ∀ v, (f v).IsAtom) :
    ∀ es : List Expr, Expr.argumentDepth (Expr.allUnlinedWith f es) = Expr.argumentDepth es
  | [] => rfl
  | e :: es => by
    simp [Expr.allUnlinedWith, Expr.argumentDepth, Expr.depth_unlinedWith hf e,
      Expr.argumentDepth_unlinedWith hf es]

end

mutual

theorem Expr.wellFormed_unlinedWith (hf : ∀ v, (f v).IsAtom) :
    ∀ e : Expr, (e.unlinedWith f).WellFormed ↔ e.WellFormed
  | .literal _ v => iff_of_true (hf v).wellFormed trivial
  | .var .. => Iff.rfl
  | .assign _ _ _ e | .get _ _ e | .group _ e | .unary _ _ e => by
    simp [Expr.unlinedWith, Expr.WellFormed, Expr.level_unlinedWith hf,
      Expr.wellFormed_unlinedWith hf e]
  | .binary _ _ l r | .logical _ _ l r | .set _ _ l r => by
    simp [Expr.unlinedWith, Expr.WellFormed, Expr.level_unlinedWith hf,
      Expr.wellFormed_unlinedWith hf l, Expr.wellFormed_unlinedWith hf r]
  | .call _ callee arguments => by
    simp [Expr.unlinedWith, Expr.WellFormed, Expr.level_unlinedWith hf,
      Expr.length_allUnlinedWith, Expr.wellFormed_unlinedWith hf callee,
      Expr.allWellFormed_unlinedWith hf arguments]

theorem Expr.allWellFormed_unlinedWith (hf : ∀ v, (f v).IsAtom) :
    ∀ es : List Expr, Expr.AllWellFormed (Expr.allUnlinedWith f es) ↔ Expr.AllWellFormed es
  | [] => Iff.rfl
  | e :: es => by
    simp [Expr.allUnlinedWith, Expr.AllWellFormed, Expr.wellFormed_unlinedWith hf e,
      Expr.allWellFormed_unlinedWith hf es]

end

theorem Stmt.isDeclaration_unlinedWith (s : Stmt) :
    (s.unlinedWith f).isDeclaration = s.isDeclaration := by
  cases s <;> rfl

theorem Stmt.follows_unlinedWith (hf : ∀ v, (f v).IsAtom) (s : Stmt) :
    (s.unlinedWith f).Follows ↔ s.Follows := by
  cases s with
  | expression _ e =>
    simp [Stmt.unlinedWith, Stmt.Follows, Stmt.isDeclaration, Stmt.attaches,
      Expr.attaches_unlinedWith hf]
  | _ => exact Iff.rfl

theorem Stmt.endsOpen_unlinedWith : ∀ s : Stmt, (s.unlinedWith f).endsOpen = s.endsOpen
  | .block .. | .expression .. | .function .. | .ifThen .. | .giveBack .. | .declare .. => rfl
  | .ifElse _ _ _ s | .whileLoop _ _ s | .forLoop _ _ _ s => Stmt.endsOpen_unlinedWith s

mutual

theorem Stmt.depth_unlinedWith (hf : ∀ v, (f v).IsAtom) :
    ∀ s : Stmt, (s.unlinedWith f).depth = s.depth
  | .block _ body | .function _ _ _ body => by
    simp [Stmt.unlinedWith, Stmt.depth, Stmt.bodyDepth_unlinedWith hf body]
  | .expression .. | .giveBack _ (some _) | .declare _ _ (some _) => by
    simp [Stmt.unlinedWith, Stmt.depth, Expr.depth_unlinedWith hf]
  | .giveBack _ none | .declare _ _ none => rfl
  | .ifThen _ _ s | .whileLoop _ _ s | .forLoop _ _ _ s => by
    simp [Stmt.unlinedWith, Stmt.depth, Expr.depth_unlinedWith hf, Stmt.depth_unlinedWith hf s]
  | .ifElse _ _ yes no => by
    simp [Stmt.unlinedWith, Stmt.depth, Expr.depth_unlinedWith hf, Stmt.depth_unlinedWith hf yes,
      Stmt.depth_unlinedWith hf no]

theorem Stmt.bodyDepth_unlinedWith (hf : ∀ v, (f v).IsAtom) :
    ∀ ss : List Stmt, Stmt.bodyDepth (Stmt.allUnlinedWith f ss) = Stmt.bodyDepth ss
  | [] => rfl
  | s :: ss => by
    simp [Stmt.allUnlinedWith, Stmt.bodyDepth, Stmt.depth_unlinedWith hf s,
      Stmt.bodyDepth_unlinedWith hf ss]

end

mutual

/-- **Whether a statement is well formed** depends neither on its lines nor on its constants. -/
theorem Stmt.wellFormed_unlinedWith (hf : ∀ v, (f v).IsAtom) :
    ∀ s : Stmt, (s.unlinedWith f).WellFormed ↔ s.WellFormed
  | .block _ body | .function _ _ _ body => by
    simp [Stmt.unlinedWith, Stmt.WellFormed, Stmt.allWellFormed_unlinedWith hf body]
  | .expression .. | .giveBack _ (some _) | .declare _ _ (some _) => by
    simp [Stmt.unlinedWith, Stmt.WellFormed, Expr.wellFormed_unlinedWith hf]
  | .giveBack _ none | .declare _ _ none => Iff.rfl
  | .ifThen _ _ s | .whileLoop _ _ s | .forLoop _ _ _ s => by
    simp [Stmt.unlinedWith, Stmt.WellFormed, Expr.wellFormed_unlinedWith hf,
      Stmt.follows_unlinedWith hf, Stmt.wellFormed_unlinedWith hf s]
  | .ifElse _ _ yes no => by
    simp [Stmt.unlinedWith, Stmt.WellFormed, Expr.wellFormed_unlinedWith hf,
      Stmt.follows_unlinedWith hf, Stmt.endsOpen_unlinedWith, Stmt.isDeclaration_unlinedWith,
      Stmt.wellFormed_unlinedWith hf yes, Stmt.wellFormed_unlinedWith hf no]

theorem Stmt.allWellFormed_unlinedWith (hf : ∀ v, (f v).IsAtom) :
    ∀ ss : List Stmt, Stmt.AllWellFormed (Stmt.allUnlinedWith f ss) ↔ Stmt.AllWellFormed ss
  | [] => Iff.rfl
  | s :: ss => by
    simp [Stmt.allUnlinedWith, Stmt.AllWellFormed, Stmt.wellFormed_unlinedWith hf s,
      Stmt.allWellFormed_unlinedWith hf ss]

end

end Scriptlet
