import Scriptlet.Proofs.Token.Lines
import Scriptlet.Proofs.Tree.Unlined

/-!
# Trees with lines moved

A text that stands further down in a file has the same tokens and the same tree, on other lines.
Lines are moved by a function, so that a shift and the erasure of all lines are both cases of it.

* `Expr.relined`, `Stmt.relined`: a tree with its lines moved; `Stmt.allRelined_allRelined`: moves
  compose.
* `Stmt.allUnlinedWith_eq`: the erasure of lines is the move to line `0`.
* `Stmt.limits_relined`: a move changes nothing in how a program can be written.
* `Chained.relined`: **what is written by tokens is written by the same tokens on other lines**.
-/

namespace Scriptlet

/-! ## Definitions -/

mutual

/-- The expression with its lines moved by `f`. -/
def Expr.relined (f : Nat → Nat) : Expr → Expr
  | .assign line name binding value => .assign (f line) name binding (value.relined f)
  | .binary line op left right => .binary (f line) op (left.relined f) (right.relined f)
  | .call line callee arguments => .call (f line) (callee.relined f) (Expr.allRelined f arguments)
  | .get line name object => .get (f line) name (object.relined f)
  | .group line inner => .group (f line) (inner.relined f)
  | .literal line value => .literal (f line) value
  | .logical line op left right => .logical (f line) op (left.relined f) (right.relined f)
  | .set line name object value => .set (f line) name (object.relined f) (value.relined f)
  | .unary line op operand => .unary (f line) op (operand.relined f)
  | .var line name binding => .var (f line) name binding

def Expr.allRelined (f : Nat → Nat) : List Expr → List Expr
  | [] => []
  | e :: es => e.relined f :: Expr.allRelined f es

end

mutual

/-- The statement with its lines moved by `f`. -/
def Stmt.relined (f : Nat → Nat) : Stmt → Stmt
  | .block line body => .block (f line) (Stmt.allRelined f body)
  | .expression line e => .expression (f line) (e.relined f)
  | .function line name params body => .function (f line) name params (Stmt.allRelined f body)
  | .ifThen line c yes => .ifThen (f line) (c.relined f) (yes.relined f)
  | .ifElse line c yes no => .ifElse (f line) (c.relined f) (yes.relined f) (no.relined f)
  | .giveBack line value => .giveBack (f line) (value.map (·.relined f))
  | .declare line name initial => .declare (f line) name (initial.map (·.relined f))
  | .whileLoop line c body => .whileLoop (f line) (c.relined f) (body.relined f)
  | .forLoop line name e body => .forLoop (f line) name (e.relined f) (body.relined f)

def Stmt.allRelined (f : Nat → Nat) : List Stmt → List Stmt
  | [] => []
  | s :: ss => s.relined f :: Stmt.allRelined f ss

end

theorem Expr.allRelined_eq_map (f : Nat → Nat) (es : List Expr) :
    Expr.allRelined f es = es.map (Expr.relined f) := by
  induction es with
  | nil => rfl
  | cons e es ih => rw [Expr.allRelined, List.map_cons, ih]

theorem Stmt.allRelined_eq_map (f : Nat → Nat) (ss : List Stmt) :
    Stmt.allRelined f ss = ss.map (Stmt.relined f) := by
  induction ss with
  | nil => rfl
  | cons s ss ih => rw [Stmt.allRelined, List.map_cons, ih]

theorem Stmt.allRelined_append (f : Nat → Nat) (ss ts : List Stmt) :
    Stmt.allRelined f (ss ++ ts) = Stmt.allRelined f ss ++ Stmt.allRelined f ts := by
  simp only [Stmt.allRelined_eq_map, List.map_append]

/-! ## Moves compose -/

mutual

theorem Expr.relined_relined (f g : Nat → Nat) :
    ∀ e : Expr, (e.relined g).relined f = e.relined (f ∘ g)
  | .literal .. | .var .. => rfl
  | .assign _ _ _ e | .get _ _ e | .group _ e | .unary _ _ e => by
    simp only [Expr.relined, Expr.relined_relined f g e, Function.comp_apply]
  | .binary _ _ l r | .logical _ _ l r | .set _ _ l r => by
    simp only [Expr.relined, Expr.relined_relined f g l, Expr.relined_relined f g r,
      Function.comp_apply]
  | .call _ callee arguments => by
    simp only [Expr.relined, Expr.relined_relined f g callee,
      Expr.allRelined_allRelined f g arguments, Function.comp_apply]

theorem Expr.allRelined_allRelined (f g : Nat → Nat) :
    ∀ es : List Expr, Expr.allRelined f (Expr.allRelined g es) = Expr.allRelined (f ∘ g) es
  | [] => rfl
  | e :: es => by
    simp only [Expr.allRelined, Expr.relined_relined f g e, Expr.allRelined_allRelined f g es]

end

mutual

theorem Stmt.relined_relined (f g : Nat → Nat) :
    ∀ s : Stmt, (s.relined g).relined f = s.relined (f ∘ g)
  | .block _ body | .function _ _ _ body => by
    simp only [Stmt.relined, Stmt.allRelined_allRelined f g body, Function.comp_apply]
  | .expression .. | .giveBack _ (some _) | .declare _ _ (some _) => by
    simp only [Stmt.relined, Option.map_some, Expr.relined_relined f g, Function.comp_apply]
  | .giveBack _ none | .declare _ _ none => rfl
  | .ifThen _ _ s | .whileLoop _ _ s | .forLoop _ _ _ s => by
    simp only [Stmt.relined, Expr.relined_relined f g, Stmt.relined_relined f g s,
      Function.comp_apply]
  | .ifElse _ _ yes no => by
    simp only [Stmt.relined, Expr.relined_relined f g, Stmt.relined_relined f g yes,
      Stmt.relined_relined f g no, Function.comp_apply]

theorem Stmt.allRelined_allRelined (f g : Nat → Nat) :
    ∀ ss : List Stmt, Stmt.allRelined f (Stmt.allRelined g ss) = Stmt.allRelined (f ∘ g) ss
  | [] => rfl
  | s :: ss => by
    simp only [Stmt.allRelined, Stmt.relined_relined f g s, Stmt.allRelined_allRelined f g ss]

end

/-! ## Erasure -/

mutual

theorem Expr.unlinedWith_eq :
    ∀ e : Expr, e.unlinedWith (.literal 0) = e.relined fun _ => 0
  | .literal .. | .var .. => rfl
  | .assign _ _ _ e | .get _ _ e | .group _ e | .unary _ _ e => by
    simp only [Expr.unlinedWith, Expr.relined, Expr.unlinedWith_eq e]
  | .binary _ _ l r | .logical _ _ l r | .set _ _ l r => by
    simp only [Expr.unlinedWith, Expr.relined, Expr.unlinedWith_eq l, Expr.unlinedWith_eq r]
  | .call _ callee arguments => by
    simp only [Expr.unlinedWith, Expr.relined, Expr.unlinedWith_eq callee,
      Expr.allUnlinedWith_eq arguments]

theorem Expr.allUnlinedWith_eq :
    ∀ es : List Expr, Expr.allUnlinedWith (.literal 0) es = Expr.allRelined (fun _ => 0) es
  | [] => rfl
  | e :: es => by
    simp only [Expr.allUnlinedWith, Expr.allRelined, Expr.unlinedWith_eq e,
      Expr.allUnlinedWith_eq es]

end

mutual

theorem Stmt.unlinedWith_eq :
    ∀ s : Stmt, s.unlinedWith (.literal 0) = s.relined fun _ => 0
  | .block _ body | .function _ _ _ body => by
    simp only [Stmt.unlinedWith, Stmt.relined, Stmt.allUnlinedWith_eq body]
  | .expression .. | .giveBack _ (some _) | .declare _ _ (some _) => by
    simp only [Stmt.unlinedWith, Stmt.relined, Option.map_some, Expr.unlinedWith_eq]
  | .giveBack _ none | .declare _ _ none => rfl
  | .ifThen _ _ s | .whileLoop _ _ s | .forLoop _ _ _ s => by
    simp only [Stmt.unlinedWith, Stmt.relined, Expr.unlinedWith_eq, Stmt.unlinedWith_eq s]
  | .ifElse _ _ yes no => by
    simp only [Stmt.unlinedWith, Stmt.relined, Expr.unlinedWith_eq, Stmt.unlinedWith_eq yes,
      Stmt.unlinedWith_eq no]

/-- **The erasure of lines** is the move to line `0`. -/
theorem Stmt.allUnlinedWith_eq :
    ∀ ss : List Stmt, Stmt.allUnlinedWith (.literal 0) ss = Stmt.allRelined (fun _ => 0) ss
  | [] => rfl
  | s :: ss => by
    simp only [Stmt.allUnlinedWith, Stmt.allRelined, Stmt.unlinedWith_eq s,
      Stmt.allUnlinedWith_eq ss]

end

theorem Stmt.unlined_append (ss ts : List Stmt) :
    Stmt.unlined (ss ++ ts) = Stmt.unlined ss ++ Stmt.unlined ts := by
  simp only [Stmt.unlined, Stmt.allUnlinedWith_eq, Stmt.allRelined_append]

theorem Stmt.unlined_relined (f : Nat → Nat) (ss : List Stmt) :
    Stmt.unlined (Stmt.allRelined f ss) = Stmt.unlined ss := by
  rw [Stmt.unlined, Stmt.allUnlinedWith_eq, Stmt.allRelined_allRelined, Stmt.unlined,
    Stmt.allUnlinedWith_eq]
  rfl

/-- **How a program can be written** does not depend on its lines. -/
theorem Stmt.limits_relined (f : Nat → Nat) (ss : List Stmt) :
    (Stmt.AllWellFormed (Stmt.allRelined f ss) ↔ Stmt.AllWellFormed ss) ∧
      Stmt.bodyDepth (Stmt.allRelined f ss) = Stmt.bodyDepth ss := by
  have hliteral : ∀ v, (Expr.literal 0 v).IsAtom := fun _ => .literal
  have hsame : Stmt.allUnlinedWith (.literal 0) (Stmt.allRelined f ss) =
      Stmt.allUnlinedWith (.literal 0) ss := Stmt.unlined_relined f ss
  constructor
  · rw [← Stmt.allWellFormed_unlinedWith hliteral, hsame, Stmt.allWellFormed_unlinedWith hliteral]
  · rw [← Stmt.bodyDepth_unlinedWith hliteral, hsame, Stmt.bodyDepth_unlinedWith hliteral]

/-! ## Written trees -/

section Lists

variable {α β : Type} {Item : α → List Token → Prop} {Item' : β → List Token → Prop}
  {as : List α} {us : List Token} {m : α → β} {f : Nat → Nat}

theorem Commas.mapped (h : Commas Item as us)
    (hitem : ∀ a ∈ as, ∀ vs, Item a vs → Item' (m a) (vs.map (Token.relined f))) :
    Commas Item' (as.map m) (us.map (Token.relined f)) := by
  induction h with
  | nil => exact .nil
  | @cons t a vs as ws ht ha _ ih =>
    obtain ⟨hfirst, hmore⟩ := List.forall_mem_cons.mp hitem
    rw [List.map_append, List.map_cons, List.map_cons]
    exact .cons (t := t.relined f) ht (hfirst _ ha) (ih hmore)

theorem Listed.mapped (h : Listed Item as us)
    (hitem : ∀ a ∈ as, ∀ vs, Item a vs → Item' (m a) (vs.map (Token.relined f))) :
    Listed Item' (as.map m) (us.map (Token.relined f)) := by
  cases h with
  | nil => exact .nil
  | cons ha hmore =>
    obtain ⟨hfirst, hitems⟩ := List.forall_mem_cons.mp hitem
    rw [List.map_append, List.map_cons]
    exact .cons (hfirst _ ha) (hmore.mapped hitems)

theorem Chained.mapped (h : Chained Item as us)
    (hitem : ∀ a ∈ as, ∀ vs, Item a vs → Item' (m a) (vs.map (Token.relined f))) :
    Chained Item' (as.map m) (us.map (Token.relined f)) := by
  induction h with
  | nil => exact .nil
  | cons ha _ ih =>
    obtain ⟨hfirst, hmore⟩ := List.forall_mem_cons.mp hitem
    rw [List.map_append, List.map_cons]
    exact .cons (hfirst _ ha) (ih hmore)

theorem Chained.append {bs : List α} {vs : List Token} (h : Chained Item as us)
    (h' : Chained Item bs vs) : Chained Item (as ++ bs) (us ++ vs) := by
  induction h with
  | nil => exact h'
  | cons ha _ ih =>
    rw [List.cons_append, List.append_assoc]
    exact .cons ha ih

end Lists

theorem Expr.Written.relined (f : Nat → Nat) {e : Expr} {us : List Token} (h : e.Written us) :
    (e.relined f).Written (us.map (Token.relined f)) := by
  cases h with
  | @literal t kind => exact .literal (t := t.relined f) kind
  | @var t kind => exact .var (t := t.relined f) kind
  | @group l r _ _ left inner right =>
    simp only [Expr.relined, List.map_append, List.map_cons, List.map_nil]
    exact .group (l := l.relined f) (r := r.relined f) left (inner.relined f) right
  | @call l r _ args _ _ callee left arguments right =>
    simp only [Expr.relined, Expr.allRelined_eq_map, List.map_append, List.map_cons, List.map_nil]
    exact .call (l := l.relined f) (r := r.relined f) (callee.relined f) left
      (arguments.mapped fun a ha _ h => h.relined f) right
  | @get d n _ _ object dot name =>
    simp only [Expr.relined, List.map_append, List.map_cons, List.map_nil]
    exact .get (d := d.relined f) (n := n.relined f) (object.relined f) dot name
  | @unary t _ _ _ operator operand =>
    exact .unary (t := t.relined f) operator (operand.relined f)
  | @binary t _ _ _ _ _ left operator right =>
    simp only [Expr.relined, List.map_append, List.map_cons]
    exact .binary (t := t.relined f) (left.relined f) operator (right.relined f)
  | @logical t _ _ _ _ _ left operator right =>
    simp only [Expr.relined, List.map_append, List.map_cons]
    exact .logical (t := t.relined f) (left.relined f) operator (right.relined f)
  | @assign n q _ _ name equal value =>
    exact .assign (n := n.relined f) (q := q.relined f) name equal (value.relined f)
  | @set d n q _ _ _ _ object dot name equal value =>
    simp only [Expr.relined, List.map_append, List.map_cons]
    exact .set (d := d.relined f) (n := n.relined f) (q := q.relined f) (object.relined f) dot name
      equal (value.relined f)
termination_by e

theorem Listed.relined (f : Nat → Nat) {params : List String} {us : List Token}
    (h : Listed NameWritten params us) :
    Listed NameWritten params (us.map (Token.relined f)) := by
  rw [← List.map_id params]
  refine h.mapped ?_
  rintro _ - _ ⟨t, rfl, hkind, rfl⟩
  exact ⟨t.relined f, rfl, hkind, rfl⟩

theorem Stmt.Written.relined (f : Nat → Nat) {s : Stmt} {us : List Token} (h : s.Written us) :
    (s.relined f).Written (us.map (Token.relined f)) := by
  cases h with
  | @block l r _ _ left body right =>
    simp only [Stmt.relined, Stmt.allRelined_eq_map, List.map_append, List.map_cons, List.map_nil]
    exact .block (l := l.relined f) (r := r.relined f) left
      (body.mapped fun s hs _ h => h.relined f) right
  | @expression t q _ _ expr semicolon =>
    simp only [Stmt.relined, List.map_append, List.map_cons, List.map_nil]
    exact .expression (t := t.relined f) (q := q.relined f) (expr.relined f) semicolon
  | @function k n l r b c _ _ _ _ keyword name left parameters right opening body closing =>
    simp only [Stmt.relined, Stmt.allRelined_eq_map, List.map_append, List.map_cons, List.map_nil]
    exact .function (f := k.relined f) (n := n.relined f) (l := l.relined f) (r := r.relined f)
      (b := b.relined f) (c := c.relined f) keyword name left (parameters.relined f) right
      opening (body.mapped fun s hs _ h => h.relined f) closing
  | @shortFunction k n l r _ s _ _ keyword name left parameters right body single =>
    simp only [Stmt.relined, Stmt.allRelined, List.map_append, List.map_cons]
    refine .shortFunction (f := k.relined f) (n := n.relined f) (l := l.relined f)
      (r := r.relined f) keyword name left (parameters.relined f) right (body.relined f) ?_
    cases s <;> exact single
  | @ifThen t _ _ _ _ keyword condition yes =>
    simp only [Stmt.relined, List.map_append, List.map_cons]
    exact .ifThen (t := t.relined f) keyword (condition.relined f) (yes.relined f)
  | @ifElse t e _ _ _ _ _ _ keyword condition yes otherwise no =>
    simp only [Stmt.relined, List.map_append, List.map_cons]
    exact .ifElse (t := t.relined f) (e := e.relined f) keyword (condition.relined f)
      (yes.relined f) otherwise (no.relined f)
  | @giveBackNothing t q keyword semicolon =>
    exact .giveBackNothing (t := t.relined f) (q := q.relined f) keyword semicolon
  | @giveBack t q _ _ keyword value semicolon =>
    simp only [Stmt.relined, Option.map_some, List.map_append, List.map_cons, List.map_nil]
    exact .giveBack (t := t.relined f) (q := q.relined f) keyword (value.relined f) semicolon
  | @declareNull t n q keyword name semicolon =>
    exact .declareNull (t := t.relined f) (n := n.relined f) (q := q.relined f) keyword name
      semicolon
  | @declare t n m q _ _ keyword name equal initial semicolon =>
    simp only [Stmt.relined, Option.map_some, List.map_append, List.map_cons, List.map_nil]
    exact .declare (t := t.relined f) (n := n.relined f) (m := m.relined f) (q := q.relined f)
      keyword name equal (initial.relined f) semicolon
  | @whileLoop t _ _ _ _ keyword condition body =>
    simp only [Stmt.relined, List.map_append, List.map_cons]
    exact .whileLoop (t := t.relined f) keyword (condition.relined f) (body.relined f)
  | @forLoop t n i _ _ _ _ keyword name keywordIn iterable body =>
    simp only [Stmt.relined, List.map_append, List.map_cons]
    exact .forLoop (t := t.relined f) (n := n.relined f) (i := i.relined f) keyword name keywordIn
      (iterable.relined f) (body.relined f)
termination_by s

/-- **A program is written by the same tokens on other lines.** -/
theorem Chained.relined (f : Nat → Nat) {ss : List Stmt} {us : List Token}
    (h : Chained Stmt.Written ss us) :
    Chained Stmt.Written (Stmt.allRelined f ss) (us.map (Token.relined f)) := by
  rw [Stmt.allRelined_eq_map]
  exact h.mapped fun _ _ _ hs => hs.relined f

end Scriptlet
