import Scriptlet.Tree

/-!
# Source text of trees

Trees are printed on one line. Parentheses stand only where the tree has a `group`, and nothing but
a blank stands between a condition and the body that follows it.

* `Expr.text`, `Stmt.text`: the source text of a tree.
* `Stmt.programText`: that of a program, statements joined by one blank.
-/

namespace Scriptlet

mutual

/-- The source text of an expression. -/
@[simp] def Expr.text : Expr → String
  | .assign _ name _ value => name ++ " = " ++ value.text
  | .binary _ op left right => left.text ++ " " ++ op.symbol ++ " " ++ right.text
  | .call _ callee arguments =>
    callee.text ++ "(" ++ ", ".intercalate (Expr.texts arguments) ++ ")"
  | .get _ name object => object.text ++ "." ++ name
  | .group _ inner => "(" ++ inner.text ++ ")"
  | .literal _ value => value.text
  | .logical _ op left right => left.text ++ " " ++ op.symbol ++ " " ++ right.text
  | .set _ name object value => object.text ++ "." ++ name ++ " = " ++ value.text
  | .unary _ op operand => op.symbol ++ operand.text
  | .var _ name _ => name

/-- The source texts of a list of expressions. -/
def Expr.texts : List Expr → List String
  | [] => []
  | e :: es => e.text :: Expr.texts es

end

@[simp] theorem Expr.texts_eq (es : List Expr) : Expr.texts es = es.map Expr.text := by
  induction es with
  | nil => rfl
  | cons e es ih => rw [Expr.texts, ih, List.map_cons]

mutual

/-- The source text of a statement. -/
@[simp] def Stmt.text : Stmt → String
  | .block _ body => Stmt.bracedText body
  | .expression _ expr => expr.text ++ ";"
  | .function _ name params body =>
    "fun " ++ name ++ "(" ++ ", ".intercalate params ++ ") " ++ Stmt.bracedText body
  | .ifThen _ condition yes => "if " ++ condition.text ++ " " ++ yes.text
  | .ifElse _ condition yes no =>
    "if " ++ condition.text ++ " " ++ yes.text ++ " else " ++ no.text
  | .giveBack _ none => "return;"
  | .giveBack _ (some value) => "return " ++ value.text ++ ";"
  | .declare _ name none => "var " ++ name ++ ";"
  | .declare _ name (some initial) => "var " ++ name ++ " = " ++ initial.text ++ ";"
  | .whileLoop _ condition body => "while " ++ condition.text ++ " " ++ body.text
  | .forLoop _ name iterable body =>
    "for " ++ name ++ " in " ++ iterable.text ++ " " ++ body.text

/-- Statements between braces. -/
def Stmt.bracedText (body : List Stmt) : String := "\x7b" ++ Stmt.tailText body

/-- Statements, each after a blank, and the closing brace. -/
def Stmt.tailText : List Stmt → String
  | [] => " \x7d"
  | s :: ss => " " ++ s.text ++ Stmt.tailText ss

end

theorem Stmt.toList_tailText (ss : List Stmt) :
    (Stmt.tailText ss).toList =
      (ss.map Stmt.text).flatMap (" ".toList ++ ·.toList) ++ [' ', '\x7d'] := by
  induction ss with
  | nil => simp [Stmt.tailText]
  | cons s ss ih => simp [Stmt.tailText, ih]

/-- The source text of a program. -/
def Stmt.programText (program : List Stmt) : String :=
  " ".intercalate (program.map Stmt.text)

end Scriptlet
