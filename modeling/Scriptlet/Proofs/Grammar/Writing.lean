import Scriptlet.Grammar.Statement
import Scriptlet.Proofs.Grammar.Reading

/-!
# Trees and the tokens that write them

The grammar as a relation between trees and lists of tokens, and what a tree must satisfy for its
tokens to be read as this tree: operators are nested by their levels, the parts of a statement do
not run into each other, and everything stays within the limits.

* `Expr.Written`, `Stmt.Written`: **the tokens write the tree**, lines included.
* `Expr.level`: how tightly the outermost operator binds; `Expr.WellFormed`, `Stmt.WellFormed`:
  operands bind tightly enough, and so on.
* `Expr.depth`, `Stmt.depth`: how many levels of nesting a tree takes.
* `Expr.Written.head`, `Stmt.Written.head`: what the first token can be.
-/

namespace Scriptlet

open Grammar (unaryOp? binaryOp?)

/-! ## Levels -/

/-- How tightly a binary operator binds. -/
def BinaryOp.level : BinaryOp → Nat
  | .equal | .notEqual => 3
  | .less | .greater | .lessEqual | .greaterEqual => 4
  | .add | .sub => 5
  | .mul | .div => 6

def LogicalOp.level : LogicalOp → Nat
  | .or => 1
  | .and => 2

/-- How tightly the outermost operator of an expression binds: least for assignments, more for
unary operators, calls and members, most for literals, names and groups. -/
def Expr.level : Expr → Nat
  | .assign .. | .set .. => 0
  | .logical _ op .. => op.level
  | .binary _ op .. => op.level
  | .unary .. => 7
  | .call .. | .get .. => 8
  | .literal .. | .var .. | .group .. => 9

theorem BinaryOp.level_lt (op : BinaryOp) : op.level < 7 := by cases op <;> decide

theorem LogicalOp.level_lt (op : LogicalOp) : op.level < 7 := by cases op <;> decide

namespace TokenKind

/-- The level of what a token goes on with behind an expression. -/
def joinLevel? : TokenKind → Option Nat
  | .equal => some 0
  | .kwOr => some 1
  | .kwAnd => some 2
  | .equalEqual | .bangEqual => some 3
  | .less | .greater | .lessEqual | .greaterEqual => some 4
  | .plus | .minus => some 5
  | .star | .slash => some 6
  | .leftParen | .dot => some 8
  | _ => none

/-- Constants. -/
def isLiteral : TokenKind → Bool
  | .number | .doubleQuoted | .singleQuoted | .kwTrue | .kwFalse | .kwNull => true
  | _ => false

/-- What an expression can start with. -/
def startsExpression : TokenKind → Bool
  | .identifier | .leftParen | .minus | .bang => true
  | kind => kind.isLiteral

theorem of_isLiteral {k : TokenKind} (h : k.isLiteral) :
    k.startsExpression ∧ k.joinLevel? = none ∧ unaryOp? k = none := by
  revert h
  cases k <;> decide

theorem isSkipped_of_isLiteral {k : TokenKind} (h : k.isLiteral) : k.isSkipped = false := by
  revert h
  cases k <;> decide

end TokenKind

/-- The keyword of a logical operator. -/
def LogicalOp.keyword : LogicalOp → TokenKind
  | .and => .kwAnd
  | .or => .kwOr

/-- An expression of level `k` or above ends before these tokens: none goes on with it. -/
def Stops (k : Nat) (ts : List Token) : Prop :=
  ∀ t ∈ ts.head?, ∀ j ∈ t.kind.joinLevel?, j < k

theorem TokenKind.joinLevel?_lt {kind : TokenKind} {j : Nat} (h : j ∈ kind.joinLevel?) : j < 9 := by
  cases kind <;> cases h <;> decide

theorem stops_primary (ts : List Token) : Stops 9 ts := fun _ _ _ hj => TokenKind.joinLevel?_lt hj

theorem stops_cons {k : Nat} {t : Token} {ts : List Token} :
    Stops k (t :: ts) ↔ ∀ j ∈ t.kind.joinLevel?, j < k := by
  simp [Stops]

theorem stops_of_none {k : Nat} {t : Token} {ts : List Token} (h : t.kind.joinLevel? = none) :
    Stops k (t :: ts) := by
  rw [stops_cons, h]
  nofun

theorem Stops.mono {j k : Nat} {ts : List Token} (h : Stops j ts) (hj : j ≤ k) : Stops k ts :=
  fun t ht i hi => Nat.lt_of_lt_of_le (h t ht i hi) hj

theorem stops_succ {k : Nat} {ts : List Token} :
    Stops k ts ↔ Stops (k + 1) ts ∧ ∀ t ∈ ts.head?, t.kind.joinLevel? ≠ some k := by
  constructor
  · intro h
    exact ⟨h.mono (Nat.le_succ k), fun t ht hk => Nat.lt_irrefl k (h t ht k hk)⟩
  · rintro ⟨h, hk⟩ t ht j hj
    rcases Nat.lt_succ_iff_lt_or_eq.mp (h t ht j hj) with hlt | rfl
    · exact hlt
    · exact absurd hj (hk t ht)

/-! ## Expressions -/

/-- **The tokens write the expression.** -/
inductive Expr.Written : Expr → List Token → Prop
  | literal {t : Token} (kind : t.kind.isLiteral) :
    Written (.literal t.line (t.literal.getD .null)) [t]
  | var {t : Token} (kind : t.kind = .identifier) :
    Written (.var t.line t.lexeme .unresolved) [t]
  | group {l r : Token} {e : Expr} {us : List Token} (left : l.kind = .leftParen)
      (inner : Written e us) (right : r.kind = .rightParen) :
    Written (.group l.line e) (l :: us ++ [r])
  | call {l r : Token} {c : Expr} {args : List Expr} {us vs : List Token}
      (callee : Written c us) (left : l.kind = .leftParen) (arguments : Listed Written args vs)
      (right : r.kind = .rightParen) :
    Written (.call l.line c args) (us ++ l :: vs ++ [r])
  | get {d n : Token} {o : Expr} {us : List Token} (object : Written o us) (dot : d.kind = .dot)
      (name : n.kind = .identifier) :
    Written (.get d.line n.lexeme o) (us ++ [d, n])
  | unary {t : Token} {op : UnaryOp} {e : Expr} {us : List Token}
      (operator : unaryOp? t.kind = some op) (operand : Written e us) :
    Written (.unary t.line op e) (t :: us)
  | binary {t : Token} {op : BinaryOp} {l r : Expr} {us vs : List Token} (left : Written l us)
      (operator : binaryOp? t.kind = some op) (right : Written r vs) :
    Written (.binary t.line op l r) (us ++ t :: vs)
  | logical {t : Token} {op : LogicalOp} {l r : Expr} {us vs : List Token} (left : Written l us)
      (operator : t.kind = op.keyword) (right : Written r vs) :
    Written (.logical t.line op l r) (us ++ t :: vs)
  | assign {n q : Token} {v : Expr} {us : List Token} (name : n.kind = .identifier)
      (equal : q.kind = .equal) (value : Written v us) :
    Written (.assign n.line n.lexeme .unresolved v) (n :: q :: us)
  | set {d n q : Token} {o v : Expr} {us vs : List Token} (object : Written o us)
      (dot : d.kind = .dot) (name : n.kind = .identifier) (equal : q.kind = .equal)
      (value : Written v vs) :
    Written (.set d.line n.lexeme o v) (us ++ d :: n :: q :: vs)

mutual

/-- Operands bind tightly enough, and no call has too many arguments. -/
def Expr.WellFormed : Expr → Prop
  | .literal .. | .var .. => True
  | .group _ e => e.WellFormed
  | .call _ c args =>
    8 ≤ c.level ∧ c.WellFormed ∧ args.length ≤ maxArguments ∧ Expr.AllWellFormed args
  | .get _ _ o => 8 ≤ o.level ∧ o.WellFormed
  | .unary _ _ e => 7 ≤ e.level ∧ e.WellFormed
  | .binary _ op l r => op.level ≤ l.level ∧ op.level < r.level ∧ l.WellFormed ∧ r.WellFormed
  | .logical _ op l r => op.level ≤ l.level ∧ op.level < r.level ∧ l.WellFormed ∧ r.WellFormed
  | .assign _ _ _ v => v.WellFormed
  | .set _ _ o v => 8 ≤ o.level ∧ o.WellFormed ∧ v.WellFormed

def Expr.AllWellFormed : List Expr → Prop
  | [] => True
  | e :: es => e.WellFormed ∧ Expr.AllWellFormed es

end

mutual

/-- How many levels of nesting an expression takes: one for each group, argument, unary operator
and right side of an assignment on the way to its deepest part. -/
def Expr.depth : Expr → Nat
  | .literal .. | .var .. => 0
  | .group _ e => e.depth + 1
  | .call _ c args => max c.depth (Expr.argumentDepth args)
  | .get _ _ o => o.depth
  | .unary _ _ e => e.depth + 1
  | .binary _ _ l r => max l.depth r.depth
  | .logical _ _ l r => max l.depth r.depth
  | .assign _ _ _ v => v.depth + 1
  | .set _ _ o v => max o.depth (v.depth + 1)

def Expr.argumentDepth : List Expr → Nat
  | [] => 0
  | e :: es => max (e.depth + 1) (Expr.argumentDepth es)

end

/-- Whether an expression starts with a parenthesis or a minus, and so would go on with an
expression before it. -/
def Expr.attaches : Expr → Bool
  | .group .. => true
  | .unary _ op _ => op == .negate
  | .binary _ _ l _ | .logical _ _ l _ => l.attaches
  | .call _ c _ => c.attaches
  | .get _ _ o | .set _ _ o _ => o.attaches
  | .literal .. | .var .. | .assign .. => false

theorem Expr.allWellFormed_iff {es : List Expr} :
    Expr.AllWellFormed es ↔ ∀ e ∈ es, e.WellFormed := by
  induction es with
  | nil => simp [Expr.AllWellFormed]
  | cons e es ih => simp [Expr.AllWellFormed, ih]

theorem Expr.argumentDepth_lt_iff {es : List Expr} {n : Nat} :
    Expr.argumentDepth es < n + 1 ↔ ∀ e ∈ es, e.depth < n := by
  induction es with
  | nil => simp [Expr.argumentDepth]
  | cons e es ih =>
    rw [Expr.argumentDepth, Nat.max_lt, ih, List.forall_mem_cons, Nat.add_lt_add_iff_right]

/-- **The first token of an expression.** It goes on with an expression before it exactly if it is
a parenthesis or a minus. -/
theorem Expr.Written.head {e : Expr} {us : List Token} (h : e.Written us) :
    ∃ t vs, us = t :: vs ∧ t.kind.startsExpression ∧
      t.kind.joinLevel?.isSome = e.attaches := by
  cases h with
  | @literal t kind =>
    obtain ⟨hs, hj, -⟩ := TokenKind.of_isLiteral kind
    exact ⟨t, [], rfl, hs, by rw [hj]; rfl⟩
  | @var t kind => exact ⟨t, [], rfl, by rw [kind]; exact ⟨rfl, rfl⟩⟩
  | group left => exact ⟨_, _, rfl, by rw [left]; exact ⟨rfl, rfl⟩⟩
  | assign name => exact ⟨_, _, rfl, by rw [name]; exact ⟨rfl, rfl⟩⟩
  | @unary t op e us operator =>
    refine ⟨_, _, rfl, ?_⟩
    generalize t.kind = k at operator
    cases k <;> cases operator <;> exact ⟨rfl, rfl⟩
  | call callee | get callee | binary callee | logical callee | set callee =>
    obtain ⟨t, vs, rfl, hs, ha⟩ := callee.head
    exact ⟨t, _, rfl, hs, ha⟩
termination_by e

/-- An expression that binds tightly does not start with a unary operator. -/
theorem Expr.Written.unaryOp?_head {e : Expr} {t : Token} {us : List Token}
    (h : e.Written (t :: us)) (hl : 8 ≤ e.level) (hw : e.WellFormed) : unaryOp? t.kind = none := by
  generalize hts : t :: us = ts at h
  cases h with
  | literal kind =>
    cases hts
    exact (TokenKind.of_isLiteral kind).2.2
  | var kind =>
    cases hts
    rw [kind]
    rfl
  | group left =>
    cases hts
    rw [left]
    rfl
  | call callee =>
    obtain ⟨u, vs, rfl, -⟩ := callee.head
    cases hts
    exact callee.unaryOp?_head hw.1 hw.2.1
  | get object =>
    obtain ⟨u, vs, rfl, -⟩ := object.head
    cases hts
    exact object.unaryOp?_head hw.1 hw.2
  | unary | assign | set => simp [Expr.level] at hl
  | @binary _ op => exact absurd hl (Nat.not_le.mpr (Nat.lt_succ_of_lt op.level_lt))
  | @logical _ op => exact absurd hl (Nat.not_le.mpr (Nat.lt_succ_of_lt op.level_lt))
termination_by e

/-! ## Statements -/

namespace Stmt

/-- Declarations stand in blocks and at top level only. -/
def isDeclaration : Stmt → Bool
  | .function .. | .declare .. => true
  | _ => false

def isBlock : Stmt → Bool
  | .block .. => true
  | _ => false

/-- Whether a statement would go on with an expression before it. -/
def attaches : Stmt → Bool
  | .expression _ e => e.attaches
  | _ => false

/-- Whether a statement ends with a conditional that has no `else`. -/
def endsOpen : Stmt → Bool
  | .ifThen .. => true
  | .ifElse _ _ _ no => no.endsOpen
  | .whileLoop _ _ body | .forLoop _ _ _ body => body.endsOpen
  | _ => false

end Stmt

/-- The token writes the name. -/
def NameWritten (name : String) (ts : List Token) : Prop :=
  ∃ t, ts = [t] ∧ t.kind = .identifier ∧ name = t.lexeme

/-- **The tokens write the statement.** The braces around the body of a function may be left out if
it is a single statement, other than a block or a declaration. -/
inductive Stmt.Written : Stmt → List Token → Prop
  | block {l r : Token} {ss : List Stmt} {us : List Token} (left : l.kind = .leftBrace)
      (body : Chained Written ss us) (right : r.kind = .rightBrace) :
    Written (.block l.line ss) (l :: us ++ [r])
  | expression {t q : Token} {e : Expr} {us : List Token} (expr : e.Written (t :: us))
      (semicolon : q.kind = .semicolon) :
    Written (.expression t.line e) (t :: us ++ [q])
  | function {f n l r b c : Token} {params : List String} {ss : List Stmt} {us vs : List Token}
      (keyword : f.kind = .kwFun) (name : n.kind = .identifier) (left : l.kind = .leftParen)
      (parameters : Listed NameWritten params us) (right : r.kind = .rightParen)
      (opening : b.kind = .leftBrace) (body : Chained Written ss vs)
      (closing : c.kind = .rightBrace) :
    Written (.function f.line n.lexeme params ss) (f :: n :: l :: us ++ r :: b :: vs ++ [c])
  | shortFunction {f n l r : Token} {params : List String} {s : Stmt} {us vs : List Token}
      (keyword : f.kind = .kwFun) (name : n.kind = .identifier) (left : l.kind = .leftParen)
      (parameters : Listed NameWritten params us) (right : r.kind = .rightParen)
      (body : Written s vs) (single : s.isDeclaration = false ∧ s.isBlock = false) :
    Written (.function f.line n.lexeme params [s]) (f :: n :: l :: us ++ r :: vs)
  | ifThen {t : Token} {c : Expr} {y : Stmt} {us vs : List Token} (keyword : t.kind = .kwIf)
      (condition : c.Written us) (yes : Written y vs) :
    Written (.ifThen t.line c y) (t :: us ++ vs)
  | ifElse {t e : Token} {c : Expr} {y n : Stmt} {us vs ws : List Token}
      (keyword : t.kind = .kwIf) (condition : c.Written us) (yes : Written y vs)
      (otherwise : e.kind = .kwElse) (no : Written n ws) :
    Written (.ifElse t.line c y n) (t :: us ++ vs ++ e :: ws)
  | giveBackNothing {t q : Token} (keyword : t.kind = .kwReturn) (semicolon : q.kind = .semicolon) :
    Written (.giveBack t.line none) [t, q]
  | giveBack {t q : Token} {e : Expr} {us : List Token} (keyword : t.kind = .kwReturn)
      (value : e.Written us) (semicolon : q.kind = .semicolon) :
    Written (.giveBack t.line (some e)) (t :: us ++ [q])
  | declareNull {t n q : Token} (keyword : t.kind = .kwVar) (name : n.kind = .identifier)
      (semicolon : q.kind = .semicolon) :
    Written (.declare t.line n.lexeme none) [t, n, q]
  | declare {t n m q : Token} {e : Expr} {us : List Token} (keyword : t.kind = .kwVar)
      (name : n.kind = .identifier) (equal : m.kind = .equal) (initial : e.Written us)
      (semicolon : q.kind = .semicolon) :
    Written (.declare t.line n.lexeme (some e)) (t :: n :: m :: us ++ [q])
  | whileLoop {t : Token} {c : Expr} {b : Stmt} {us vs : List Token} (keyword : t.kind = .kwWhile)
      (condition : c.Written us) (body : Written b vs) :
    Written (.whileLoop t.line c b) (t :: us ++ vs)
  | forLoop {t n i : Token} {e : Expr} {b : Stmt} {us vs : List Token} (keyword : t.kind = .kwFor)
      (name : n.kind = .identifier) (keywordIn : i.kind = .kwIn) (iterable : e.Written us)
      (body : Written b vs) :
    Written (.forLoop t.line n.lexeme e b) (t :: n :: i :: us ++ vs)

/-- A statement that can follow a condition. -/
def Stmt.Follows (s : Stmt) : Prop := s.isDeclaration = false ∧ s.attaches = false

mutual

/-- The parts of a statement do not run into each other: a body does not go on with the condition
before it, and an `else` belongs to its own conditional. -/
def Stmt.WellFormed : Stmt → Prop
  | .block _ body => Stmt.AllWellFormed body
  | .expression _ e => e.WellFormed
  | .function _ _ params body => params.length ≤ maxParameters ∧ Stmt.AllWellFormed body
  | .ifThen _ c yes => c.WellFormed ∧ yes.Follows ∧ yes.WellFormed
  | .ifElse _ c yes no =>
    c.WellFormed ∧ yes.Follows ∧ yes.WellFormed ∧ yes.endsOpen = false ∧
      no.isDeclaration = false ∧ no.WellFormed
  | .giveBack _ none => True
  | .giveBack _ (some e) => e.WellFormed
  | .declare _ _ none => True
  | .declare _ _ (some e) => e.WellFormed
  | .whileLoop _ c body => c.WellFormed ∧ body.Follows ∧ body.WellFormed
  | .forLoop _ _ e body => e.WellFormed ∧ body.Follows ∧ body.WellFormed

def Stmt.AllWellFormed : List Stmt → Prop
  | [] => True
  | s :: ss => s.WellFormed ∧ Stmt.AllWellFormed ss

end

mutual

/-- How many levels of nesting a statement takes: one for each statement that is not a declaration,
body of a function and expression on the way to its deepest part. -/
def Stmt.depth : Stmt → Nat
  | .block _ body => Stmt.bodyDepth body + 1
  | .expression _ e => e.depth + 2
  | .function _ _ _ body => Stmt.bodyDepth body + 1
  | .ifThen _ c yes => max (c.depth + 1) yes.depth + 1
  | .ifElse _ c yes no => max (c.depth + 1) (max yes.depth no.depth) + 1
  | .giveBack _ none => 1
  | .giveBack _ (some e) => e.depth + 2
  | .declare _ _ none => 0
  | .declare _ _ (some e) => e.depth + 1
  | .whileLoop _ c body => max (c.depth + 1) body.depth + 1
  | .forLoop _ _ e body => max (e.depth + 1) body.depth + 1

def Stmt.bodyDepth : List Stmt → Nat
  | [] => 0
  | s :: ss => max s.depth (Stmt.bodyDepth ss)

end

theorem Stmt.allWellFormed_iff {ss : List Stmt} :
    Stmt.AllWellFormed ss ↔ ∀ s ∈ ss, s.WellFormed := by
  induction ss with
  | nil => simp [Stmt.AllWellFormed]
  | cons s ss ih => simp [Stmt.AllWellFormed, ih]

theorem Stmt.bodyDepth_le_iff {ss : List Stmt} {n : Nat} :
    Stmt.bodyDepth ss ≤ n ↔ ∀ s ∈ ss, s.depth ≤ n := by
  induction ss with
  | nil => simp [Stmt.bodyDepth]
  | cons s ss ih => rw [Stmt.bodyDepth, Nat.max_le, ih, List.forall_mem_cons]

/-- What a statement can start with. -/
def TokenKind.opensStatement : TokenKind → Bool
  | .leftBrace | .kwIf | .kwFun | .kwVar | .kwFor | .kwWhile | .kwReturn => true
  | kind => kind.startsExpression

theorem TokenKind.of_startsExpression {k : TokenKind} (h : k.startsExpression) :
    k.opensStatement ∧ k ≠ .kwFun ∧ k ≠ .kwVar ∧ k ≠ .leftBrace ∧ k ≠ .rightParen ∧
      k ≠ .semicolon := by
  revert h
  cases k <;> decide

theorem TokenKind.of_opensStatement {k : TokenKind} (h : k.opensStatement) :
    k ≠ .kwElse ∧ k ≠ .rightBrace ∧ k ≠ .endOfInput := by
  revert h
  cases k <;> decide

/-- **The first token of a statement** tells declarations and blocks from the rest. -/
theorem Stmt.Written.head {s : Stmt} {us : List Token} (h : s.Written us) :
    ∃ t vs, us = t :: vs ∧ t.kind.opensStatement ∧ t.kind.joinLevel?.isSome = s.attaches ∧
      (t.kind = .kwFun ∨ t.kind = .kwVar ↔ s.isDeclaration) ∧
      (t.kind = .leftBrace ↔ s.isBlock) := by
  cases h with
  | @expression t q e us expr =>
    obtain ⟨_, _, hts, hs, ha⟩ := expr.head
    cases hts
    obtain ⟨ho, hf, hv, hb, -⟩ := TokenKind.of_startsExpression hs
    exact ⟨t, _, rfl, ho, ha, by simp [hf, hv, isDeclaration], by simp [hb, isBlock]⟩
  | block h | function h | shortFunction h | ifThen h | ifElse h | giveBackNothing h | giveBack h
  | declareNull h | declare h | whileLoop h | forLoop h =>
    refine ⟨_, _, rfl, ?_⟩
    rw [h]
    simp [TokenKind.opensStatement, TokenKind.joinLevel?, attaches, isDeclaration, isBlock]

end Scriptlet
