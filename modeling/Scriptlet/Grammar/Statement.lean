import Scriptlet.Grammar.Expression

/-!
# Statements and programs

Statements and function bodies are levels of nesting too. An error inside a block or at top level
does not end the parse: the tokens up to a likely end of the statement are dropped
(`synchronize`), the error is recorded, and parsing goes on.

* `statement`, `declaration`: one statement with a given number of levels of room.
* `recovering`: one statement, or the error and the place to go on from.
* `program`: all statements of a token list and all errors.
* `parse`: **the program, or every error in order**.
-/

namespace Scriptlet

namespace Grammar

open Scriptlet.Parser

/-! ## Recovery -/

/-- The number of open braces behind a token. -/
def braceDepth (depth : Nat) : TokenKind → Nat
  | .leftBrace => depth + 1
  | .rightBrace => depth - 1
  | _ => depth

/-- Drops tokens up to the end of a broken statement: behind a semicolon, or before a keyword that
starts a statement, outside all braces opened on the way. A closing brace that was not opened on
the way and the end of input stay. -/
def synchronize (depth : Nat) : List Token → List Token
  | [] => []
  | t :: ts =>
    if t.kind = .endOfInput ∨ (t.kind = .rightBrace ∧ depth = 0) then t :: ts
    else
      let depth := braceDepth depth t.kind
      if depth = 0 ∧ (t.kind = .semicolon ∨ ts.head?.any (·.kind.startsStatement)) then ts
      else synchronize depth ts

theorem synchronize_suffix (depth : Nat) (ts : List Token) : synchronize depth ts <:+ ts := by
  fun_induction synchronize depth ts with
  | case1 | case2 => exact List.suffix_refl _
  | case3 depth t ts => exact List.suffix_cons t ts
  | case4 depth t ts _ _ _ ih => exact ih.trans (List.suffix_cons t ts)

/-- Tokens at which a list of statements ends. -/
def endsStatements (t : Token) : Bool := t.kind == .rightBrace || t.kind == .endOfInput

theorem synchronize_length_lt {t : Token} (ts : List Token) (ht : endsStatements t = false) :
    (synchronize 0 (t :: ts)).length < (t :: ts).length := by
  simp only [endsStatements, Bool.or_eq_false_iff, beq_eq_false_iff_ne] at ht
  rw [synchronize, if_neg (by simp [ht.1, ht.2])]
  dsimp only
  split
  · simp
  · exact Nat.lt_succ_of_le (synchronize_suffix _ ts).length_le

/-- The outcome of an attempt at one statement. -/
structure Recovery where
  statement? : Option Stmt
  errors : List ParseError
  rest : List Token

/-- Parses one statement; after an error, goes on behind it. -/
def recovering (p : Parser Stmt) (ts : List Token) : Recovery :=
  let r := p.run ts
  match r.result with
  | .ok s => ⟨some s, r.recovered, r.rest⟩
  | .error e => ⟨none, r.recovered ++ [e], synchronize 0 r.rest⟩

theorem recovering_suffix (p : Parser Stmt) (ts : List Token) :
    (recovering p ts).rest <:+ ts := by
  unfold recovering
  dsimp only
  split
  · exact p.suffix ts
  · exact (synchronize_suffix 0 _).trans (p.suffix ts)

/-- **Progress**: an attempt that does not start at the end of a list takes at least one token. -/
theorem recovering_length_lt (p : Consuming Stmt) {t : Token} (ts : List Token)
    (ht : endsStatements t = false) :
    (recovering p.toParser (t :: ts)).rest.length < (t :: ts).length := by
  unfold recovering
  dsimp only
  split
  · rename_i s h
    exact p.consumes _ s h
  · rcases List.suffix_cons_iff.mp (p.suffix (t :: ts)) with h | h
    · rw [h]; exact synchronize_length_lt ts ht
    · have := ((synchronize_suffix 0 _).trans h).length_le
      simp only [List.length_cons]; omega

/-! ## Lists of statements -/

/-- Statements read one after another, with the errors met on the way. -/
structure Batch where
  statements : List Stmt
  errors : List ParseError
  rest : List Token

/-- Statements up to a closing brace or the end of input. -/
def statements (p : Consuming Stmt) : List Token → Batch
  | [] => ⟨[], [], []⟩
  | t :: ts =>
    if _ht : endsStatements t then ⟨[], [], t :: ts⟩
    else
      let r := recovering p.toParser (t :: ts)
      let b := statements p r.rest
      ⟨r.statement?.toList ++ b.statements, r.errors ++ b.errors, b.rest⟩
termination_by ts => ts.length
decreasing_by exact recovering_length_lt p ts (by simpa using _ht)

theorem statements_suffix (p : Consuming Stmt) (ts : List Token) :
    (statements p ts).rest <:+ ts := by
  fun_induction statements p ts with
  | case1 | case2 => exact List.suffix_refl _
  | case3 t ts _ r b ih => exact ih.trans (recovering_suffix _ _)

/-- Statements up to a closing brace, as a parser that always succeeds. -/
def statementList (p : Consuming Stmt) : Parser (List Stmt) :=
  ⟨fun ts => let b := statements p ts; ⟨.ok b.statements, b.errors, b.rest⟩, statements_suffix p⟩

/-- The body of a block, after its opening brace. -/
def blockBody (p : Consuming Stmt) : Parser (List Stmt) := do
  let body ← statementList p
  let _ ← expect .rightBrace .blockEnd
  return body

/-- A block. -/
def block (p : Consuming Stmt) : Parser Stmt := do
  let brace ← expect .leftBrace .blockStart
  let body ← blockBody p
  return .block brace.line body

/-! ## Single statements -/

/-- The parsers that statements call one level further in. -/
structure StmtParsers where
  expression : Parser Expr
  statement : Consuming Stmt
  declaration : Consuming Stmt

section Levels

variable (inner : StmtParsers)

/-- The branches of a conditional, after its keyword. -/
def conditional (line : Nat) : Parser Stmt := do
  let condition ← inner.expression
  let yes ← inner.statement.toParser
  headed
    (fun t =>
      if t.kind = .kwElse then some do
        let no ← inner.statement.toParser
        return .ifElse line condition yes no
      else none)
    (succeed (.ifThen line condition yes))

/-- A loop over a condition, after its keyword. -/
def whileLoop (line : Nat) : Parser Stmt := do
  let condition ← inner.expression
  let body ← inner.statement.toParser
  return .whileLoop line condition body

/-- A loop over a range, after its keyword. -/
def forLoop (line : Nat) : Parser Stmt := do
  let loopName ← name .loopVariable
  let _ ← expect .kwIn .loopIn
  let iterable ← inner.expression
  let body ← inner.statement.toParser
  return .forLoop line loopName iterable body

/-- A return, after its keyword. -/
def giveBack (line : Nat) : Parser Stmt :=
  headed (fun t => if t.kind = .semicolon then some (succeed (.giveBack line none)) else none) do
    let value ← inner.expression
    let _ ← expect .semicolon .returnEnd
    return .giveBack line (some value)

/-- An expression with its semicolon. -/
def expressionStatement (line : Nat) : Parser Stmt :=
  inner.expression.andThen fun e =>
    (expect .semicolon .expressionEnd).andThen fun _ => succeed (.expression line e)

/-- A statement that starts with a brace or a keyword. -/
def keywordStatement? (t : Token) : Option (Parser Stmt) :=
  match t.kind with
  | .leftBrace => some do
    let body ← blockBody inner.declaration
    return .block t.line body
  | .kwIf => some (conditional inner t.line)
  | .kwWhile => some (whileLoop inner t.line)
  | .kwFor => some (forLoop inner t.line)
  | .kwReturn => some (giveBack inner t.line)
  | _ => none

theorem consumes_expressionStatement (line : Nat) :
    (expressionStatement inner line).Consumes :=
  Consumes.andThen_right fun _ => (consumes_expect _ _).andThen_left _

end Levels

theorem consumes_enter {ι α : Type} (inner : Option ι) (line : Nat) {p : ι → Parser α}
    (h : ∀ i, (p i).Consumes) : (enter inner line p).Consumes := by
  cases inner with
  | none => exact consumes_fail _
  | some i => exact h i

/-- A statement that is not a declaration. -/
def statementWith (inner : Option StmtParsers) : Consuming Stmt where
  toParser := ⟨fun
    | [] => ⟨.error (unexpectedAt .statement []), [], []⟩
    | t :: ts =>
      (enter inner t.line fun i =>
        headed (keywordStatement? i) (expressionStatement i t.line)).run (t :: ts),
    fun
    | [] => List.suffix_refl []
    | t :: ts => Parser.suffix _ (t :: ts)⟩
  consumes
    | [], a, h => by cases h
    | t :: ts, a, h =>
      consumes_enter inner t.line (fun i => (consumes_expressionStatement i t.line).headed _)
        (t :: ts) a h

/-- The declaration of a function, after its keyword. -/
def function (inner : Option StmtParsers) (line : Nat) : Parser Stmt := do
  let functionName ← name .functionName
  let _ ← expect .leftParen .parameterList
  let params ← commaList (name .parameterName)
  if maxParameters < params.length then fail (.tooManyParameters line)
  else enter inner line fun i => do
    let body ← headed
      (fun t => if t.kind = .leftBrace then some (blockBody i.declaration) else none)
      (do let s ← i.statement.toParser; return [s])
    return .function line functionName params body

/-- The declaration of a variable, after its keyword. -/
def variableDeclaration (expression : Parser Expr) (line : Nat) : Parser Stmt := do
  let variableName ← name .variableName
  let initial ← headed
    (fun t => if t.kind = .equal then some (do let e ← expression; return some e) else none)
    (succeed none)
  let _ ← expect .semicolon .declarationEnd
  return .declare line variableName initial

/-- A statement of any form. -/
def declarationWith (expression : Parser Expr) (inner : Option StmtParsers) : Consuming Stmt where
  toParser :=
    headed
      (fun t =>
        match t.kind with
        | .kwFun => some (function inner t.line)
        | .kwVar => some (variableDeclaration expression t.line)
        | _ => none)
      (statementWith inner).toParser
  consumes := (statementWith inner).consumes.headed _

/-! ## Room -/

/-- The parsers with the given number of levels of room. -/
def stmtLevel : Nat → Option StmtParsers
  | 0 => none
  | room + 1 =>
    let inner := stmtLevel room
    some ⟨expression room, statementWith inner, declarationWith (expression room) inner⟩

/-- A statement that is not a declaration, with the given number of levels of room. -/
def statement (room : Nat) : Consuming Stmt := statementWith (stmtLevel room)

/-- A statement of any form, with the given number of levels of room. -/
def declaration (room : Nat) : Consuming Stmt := declarationWith (expression room) (stmtLevel room)

/-! ## Programs -/

/-- All statements of a token list. A closing brace that nothing opened is an error of its own. -/
def program (p : Consuming Stmt) (ts : List Token) : Batch :=
  let b := statements p ts
  match _h : b.rest with
  | t :: rest =>
    if t.kind = .rightBrace then
      let c := program p rest
      ⟨b.statements ++ c.statements, b.errors ++ unexpectedAt .statement (t :: rest) :: c.errors,
        c.rest⟩
    else b
  | [] => b
termination_by ts.length
decreasing_by
  have hle := (statements_suffix p ts).length_le
  simp only [b] at _h
  rw [_h] at hle
  exact hle

/-- **The program that a token list writes**, or every error in order. -/
def parse (tokens : List Token) : Except (List ParseError) (List Stmt) :=
  let b := program (declaration maxNesting) tokens
  if b.errors.isEmpty then .ok b.statements else .error b.errors

end Grammar

end Scriptlet
