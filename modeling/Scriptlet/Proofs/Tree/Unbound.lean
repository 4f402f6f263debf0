import Scriptlet.Proofs.Grammar.Writing

/-!
# Trees without bindings

The tree that is left when every variable is found by its name again. Trees that are written by
tokens are such trees already.

* `Expr.unbound`, `Stmt.unbound`: a tree without bindings.
* `Chained.allUnbound`: **a program is written without bindings**.
-/

namespace Scriptlet

mutual

/-- The expression with every variable left to be found by its name. -/
def Expr.unbound : Expr → Expr
  | .assign line name _ value => .assign line name .unresolved value.unbound
  | .binary line op left right => .binary line op left.unbound right.unbound
  | .call line callee arguments => .call line callee.unbound (Expr.allUnbound arguments)
  | .get line name object => .get line name object.unbound
  | .group line inner => .group line inner.unbound
  | .literal line value => .literal line value
  | .logical line op left right => .logical line op left.unbound right.unbound
  | .set line name object value => .set line name object.unbound value.unbound
  | .unary line op operand => .unary line op operand.unbound
  | .var line name _ => .var line name .unresolved

def Expr.allUnbound : List Expr → List Expr
  | [] => []
  | e :: es => e.unbound :: Expr.allUnbound es

end

mutual

/-- The statement with every variable left to be found by its name. -/
def Stmt.unbound : Stmt → Stmt
  | .block line body => .block line (Stmt.allUnbound body)
  | .expression line e => .expression line e.unbound
  | .function line name params body => .function line name params (Stmt.allUnbound body)
  | .ifThen line c yes => .ifThen line c.unbound yes.unbound
  | .ifElse line c yes no => .ifElse line c.unbound yes.unbound no.unbound
  | .giveBack line value => .giveBack line (value.map Expr.unbound)
  | .declare line name initial => .declare line name (initial.map Expr.unbound)
  | .whileLoop line c body => .whileLoop line c.unbound body.unbound
  | .forLoop line name e body => .forLoop line name e.unbound body.unbound

def Stmt.allUnbound : List Stmt → List Stmt
  | [] => []
  | s :: ss => s.unbound :: Stmt.allUnbound ss

end

theorem Expr.allUnbound_eq_map (es : List Expr) : Expr.allUnbound es = es.map Expr.unbound := by
  induction es with
  | nil => rfl
  | cons e es ih => rw [Expr.allUnbound, List.map_cons, ih]

theorem Stmt.allUnbound_eq_map (ss : List Stmt) : Stmt.allUnbound ss = ss.map Stmt.unbound := by
  induction ss with
  | nil => rfl
  | cons s ss ih => rw [Stmt.allUnbound, List.map_cons, ih]

theorem Expr.allUnbound_eq_self {es : List Expr} (h : ∀ e ∈ es, e.unbound = e) :
    Expr.allUnbound es = es := by
  rw [Expr.allUnbound_eq_map]
  exact (List.map_congr_left h).trans (List.map_id es)

theorem Stmt.allUnbound_eq_self {ss : List Stmt} (h : ∀ s ∈ ss, s.unbound = s) :
    Stmt.allUnbound ss = ss := by
  rw [Stmt.allUnbound_eq_map]
  exact (List.map_congr_left h).trans (List.map_id ss)

/-! ## Written trees -/

theorem Expr.Written.unbound {e : Expr} {us : List Token} (h : e.Written us) : e.unbound = e := by
  cases h with
  | literal | var => rfl
  | group _ inner => rw [Expr.unbound, inner.unbound]
  | call callee _ arguments =>
    have hargs := Expr.allUnbound_eq_self fun a ha =>
      have ⟨_, hwritten, _⟩ := arguments.exists_item a ha
      hwritten.unbound
    rw [Expr.unbound, callee.unbound, hargs]
  | get object => rw [Expr.unbound, object.unbound]
  | unary _ operand => rw [Expr.unbound, operand.unbound]
  | binary left _ right => rw [Expr.unbound, left.unbound, right.unbound]
  | logical left _ right => rw [Expr.unbound, left.unbound, right.unbound]
  | assign _ _ value => rw [Expr.unbound, value.unbound]
  | set object _ _ _ value => rw [Expr.unbound, object.unbound, value.unbound]
termination_by e

theorem Stmt.Written.unbound {s : Stmt} {us : List Token} (h : s.Written us) : s.unbound = s := by
  cases h with
  | block _ body =>
    have hbody := Stmt.allUnbound_eq_self fun s hs =>
      have ⟨_, hwritten, _⟩ := body.exists_item s hs
      hwritten.unbound
    rw [Stmt.unbound, hbody]
  | function _ _ _ _ _ _ body =>
    have hbody := Stmt.allUnbound_eq_self fun s hs =>
      have ⟨_, hwritten, _⟩ := body.exists_item s hs
      hwritten.unbound
    rw [Stmt.unbound, hbody]
  | expression expr => rw [Stmt.unbound, expr.unbound]
  | shortFunction _ _ _ _ _ body =>
    rw [Stmt.unbound, Stmt.allUnbound, body.unbound, Stmt.allUnbound]
  | ifThen _ condition yes => rw [Stmt.unbound, condition.unbound, yes.unbound]
  | ifElse _ condition yes _ no => rw [Stmt.unbound, condition.unbound, yes.unbound, no.unbound]
  | giveBackNothing | declareNull => rfl
  | giveBack _ value => rw [Stmt.unbound, Option.map_some, value.unbound]
  | declare _ _ _ initial => rw [Stmt.unbound, Option.map_some, initial.unbound]
  | whileLoop _ condition body => rw [Stmt.unbound, condition.unbound, body.unbound]
  | forLoop _ _ _ iterable body => rw [Stmt.unbound, iterable.unbound, body.unbound]
termination_by s

/-- **A program is written without bindings.** -/
theorem Chained.allUnbound {ss : List Stmt} {us : List Token} (h : Chained Stmt.Written ss us) :
    Stmt.allUnbound ss = ss := by
  refine Stmt.allUnbound_eq_self fun s hs => ?_
  obtain ⟨_, hwritten, -⟩ := h.exists_item s hs
  exact hwritten.unbound

end Scriptlet
