import Scriptlet.Proofs.Grammar.Recovery

/-!
# Errors come in the order of the text

No parser takes the end of input, so that there is always a next token, and every error is on a line
between that of the first token its parser was given and that of the next token it left. Parsers
of expressions report one error at most: the line of such an error may be that of a token taken
earlier, but nothing was reported since. All other errors are on the line of the next token.

* `Lined`: tokens on ascending lines up to the end of input.
* `Ascending`: errors on ascending lines between two given ones.
* `Reports`: **a parser reports errors in order**. `Reports.bind` goes on after a parser that
  reports one error at most, and `Reports.after` after any parser.
* `ascending_parse`: **the errors of a program are on ascending lines**.
-/

namespace Scriptlet

namespace Grammar

open Scriptlet.Parser

/-! ## Ascending lines -/

/-- **Tokens on ascending lines**, from the given line on and up to the end of input. -/
def Lined (lo : Nat) : List Token → Prop
  | [] => False
  | t :: ts => lo ≤ t.line ∧ (ts = [] ∧ t.kind = .endOfInput ∨ Lined t.line ts)

/-- **Errors on ascending lines**, from one line to another. -/
def Ascending (lo hi : Nat) : List ParseError → Prop
  | [] => lo ≤ hi
  | e :: es => lo ≤ e.line ∧ Ascending e.line hi es

section Lines

variable {lo mid hi : Nat} {t : Token} {ts : List Token} {es es' : List ParseError}

theorem Lined.mono (h : Lined mid ts) (hle : lo ≤ mid) : Lined lo ts := by
  cases ts with
  | nil => exact h
  | cons t ts => exact ⟨hle.trans h.1, h.2⟩

theorem Lined.head (h : Lined lo (t :: ts)) : Lined t.line (t :: ts) := ⟨Nat.le_refl _, h.2⟩

theorem Lined.tail (h : Lined lo (t :: ts)) (ht : t.kind ≠ .endOfInput) : Lined t.line ts :=
  h.2.resolve_left fun hend => ht hend.2

theorem Lined.forall_mem (h : Lined lo ts) : ∀ t ∈ ts, lo ≤ t.line := by
  induction ts generalizing lo with
  | nil => exact nofun
  | cons t ts ih =>
    refine List.forall_mem_cons.mpr ⟨h.1, fun t' ht' => ?_⟩
    obtain ⟨rfl, -⟩ | hmore := h.2
    · cases ht'
    · exact h.1.trans (ih hmore t' ht')

theorem Ascending.le (h : Ascending lo hi es) : lo ≤ hi := by
  induction es generalizing lo with
  | nil => exact h
  | cons e es ih => exact h.1.trans (ih h.2)

theorem Ascending.mono (h : Ascending mid hi es) (hle : lo ≤ mid) : Ascending lo hi es := by
  cases es with
  | nil => exact hle.trans h
  | cons e es => exact ⟨hle.trans h.1, h.2⟩

theorem Ascending.append (h : Ascending lo mid es) (h' : Ascending mid hi es') :
    Ascending lo hi (es ++ es') := by
  induction es generalizing lo with
  | nil => exact h'.mono h
  | cons e es ih => exact ⟨h.1, ih h.2⟩

theorem Ascending.upTo (h : Ascending lo mid es) (hle : mid ≤ hi) : Ascending lo hi es := by
  induction es generalizing lo with
  | nil => exact h.trans hle
  | cons e es ih => exact ⟨h.1, ih h.2⟩

theorem Ascending.forall_mem (h : Ascending lo hi es) : ∀ e ∈ es, lo ≤ e.line ∧ e.line ≤ hi := by
  induction es generalizing lo with
  | nil => exact nofun
  | cons e es ih =>
    refine List.forall_mem_cons.mpr ⟨⟨h.1, h.2.le⟩, fun e' he' => ?_⟩
    exact ⟨h.1.trans (ih h.2 e' he').1, (ih h.2 e' he').2⟩

theorem Ascending.pairwise (h : Ascending lo hi es) : es.Pairwise (·.line ≤ ·.line) := by
  induction es generalizing lo with
  | nil => exact .nil
  | cons e es ih => exact .cons (fun e' he' => (h.2.forall_mem e' he').1) (ih h.2)

theorem line_unexpectedAt (expected : Expectation) (t : Token) (ts : List Token) :
    (unexpectedAt expected (t :: ts)).line = t.line := by
  unfold unexpectedAt
  dsimp only
  split_ifs <;> rfl

end Lines

/-! ## Parsers -/

/-- All errors of a reply, the one that ended it last. -/
def Reply.errors {α : Type} (r : Reply α) : List ParseError :=
  match r.result with
  | .ok _ => r.recovered
  | .error e => r.recovered ++ [e]

/-- **A reply in order**: its errors are on ascending lines between `lo` and the next token. Unless
there may be `many` errors, it recovered from none. -/
inductive InOrder {α : Type} (many : Prop) (lo : Nat) (r : Reply α) : Prop
  | intro (hi : Nat) (rest : Lined hi r.rest) (errors : Ascending lo hi (Reply.errors r))
      (recovered : many ∨ r.recovered = [])

/-- **A parser reports errors in order**, given tokens from the line `lo` on. -/
def Reports {α : Type} (many : Prop) (lo : Nat) (p : Parser α) : Prop :=
  ∀ ts, Lined lo ts → InOrder many lo (p.run ts)

section Reports

variable {α β : Type} {many : Prop} {lo : Nat}

theorem InOrder.mono {mid : Nat} {r : Reply α} (h : InOrder many mid r) (hle : lo ≤ mid) :
    InOrder many lo r := by
  obtain ⟨hi, hrest, herrors, hrecovered⟩ := h
  exact ⟨hi, hrest, herrors.mono hle, hrecovered⟩

theorem InOrder.andThen {r : Reply α} {f : α → Parser β} (h : InOrder many lo r)
    (hf : ∀ a mid, r.result = .ok a → Lined mid r.rest → InOrder many mid ((f a).run r.rest)) :
    InOrder many lo (r.andThen f) := by
  obtain ⟨hi, hrest, herrors, hrecovered⟩ := h
  unfold Reply.andThen
  unfold Reply.errors at herrors
  split at herrors <;> rename_i hresult <;> simp only [hresult]
  · obtain ⟨hi', hrest', herrors', hrecovered'⟩ := hf _ hi hresult hrest
    refine ⟨hi', hrest', ?_, or_iff_not_imp_left.mpr fun hmany => ?_⟩
    · have hall := herrors.append herrors'
      unfold Reply.errors at hall ⊢
      unfold Reply.after
      split at hall <;> rename_i hlast <;> simp only [hlast]
      · exact hall
      · rwa [List.append_assoc]
    · simp [Reply.after, hrecovered.resolve_left hmany, hrecovered'.resolve_left hmany]
  · exact ⟨hi, hrest, herrors, hrecovered⟩

theorem Reports.after {p : Parser α} {f : α → Parser β} (hp : Reports many lo p)
    (hf : ∀ a mid, Reports many mid (f a)) : Reports many lo (p >>= f) :=
  fun ts hts => (hp ts hts).andThen fun a mid _ hrest => hf a mid _ hrest

/-- What comes behind a parser that recovers from no error may report any line from `lo` on. -/
theorem Reports.bind {p : Parser α} {f : α → Parser β} (hp : Reports False lo p)
    (hf : ∀ a, Reports many lo (f a)) : Reports many lo (p >>= f) := by
  intro ts hts
  obtain ⟨hi, hrest, herrors, hrecovered⟩ := hp ts hts
  have hnone : (p.run ts).recovered = [] := hrecovered.resolve_left id
  change InOrder many lo ((p.run ts).andThen f)
  unfold Reply.andThen
  unfold Reply.errors at herrors
  split at herrors <;> rename_i hresult <;> simp only [hresult]
  · rw [hnone] at herrors ⊢
    exact hf _ _ (hrest.mono herrors)
  · exact ⟨hi, hrest, herrors, .inr hnone⟩

theorem reports_succeed (a : α) : Reports many lo (succeed a) :=
  fun _ hts => ⟨lo, hts, Nat.le_refl lo, .inr rfl⟩

theorem reports_pure (a : α) : Reports many lo (pure a : Parser α) := reports_succeed a

theorem Reports.map {p : Parser α} (hp : Reports many lo p) (f : α → β) :
    Reports many lo (p >>= fun a => pure (f a)) :=
  hp.after fun _ _ => reports_pure _

theorem reports_fail {e : ParseError} (he : e.line = lo) : Reports many lo (fail e : Parser α) :=
  fun _ hts => ⟨lo, hts, ⟨he.ge, he.le⟩, .inr rfl⟩

theorem reports_unexpected (expected : Expectation) :
    Reports many lo (unexpected expected : Parser α) := by
  intro ts hts
  cases ts with
  | nil => exact hts.elim
  | cons t ts =>
    have hline := line_unexpectedAt expected t ts
    exact ⟨t.line, hts.head, ⟨hline ▸ hts.1, hline.le⟩, .inr rfl⟩

theorem Reports.headed {choice : Token → Option (Parser α)} {otherwise : Parser α}
    (hchoice : ∀ t p, choice t = some p → t.kind ≠ .endOfInput ∧ Reports many t.line p)
    (hotherwise : Reports many lo otherwise) : Reports many lo (headed choice otherwise) := by
  intro ts hts
  cases ts with
  | nil => exact hts.elim
  | cons t ts =>
    cases hp : choice t with
    | none =>
      have hrun : (Parser.headed choice otherwise).run (t :: ts) = otherwise.run (t :: ts) := by
        simp only [Parser.headed, hp]
      rw [hrun]
      exact hotherwise _ hts
    | some p =>
      have hrun : (Parser.headed choice otherwise).run (t :: ts) = p.run ts := by
        simp only [Parser.headed, hp]
      obtain ⟨ht, hreports⟩ := hchoice t p hp
      rw [hrun]
      exact (hreports ts (hts.tail ht)).mono hts.1

theorem reports_expect {kind : TokenKind} (expected : Expectation) (hkind : kind ≠ .endOfInput) :
    Reports many lo (expect kind expected) := by
  refine Reports.headed (fun t p hp => ?_) (reports_unexpected expected)
  split_ifs at hp with ht
  cases hp
  exact ⟨ht ▸ hkind, reports_succeed t⟩

theorem reports_name (expected : Expectation) : Reports many lo (name expected) :=
  (reports_expect expected (by decide)).map _

theorem reports_enter {ι : Type} {inner : Option ι} {p : ι → Parser α}
    (h : ∀ i ∈ inner, Reports many lo (p i)) : Reports many lo (enter inner lo p) := by
  cases inner with
  | none => exact reports_fail rfl
  | some i => exact h i rfl

theorem run_extend {more : α → Token → Option (Parser α)} {a : α} {t : Token} {p : Parser α}
    (hp : more a t = some p) (ts : List Token) :
    (extend more a).run (t :: ts) = (p.run ts).andThen (extend more) := by
  change extendRun more a (t :: ts) = _
  rw [extendRun, hp]
  unfold Reply.andThen
  cases hresult : (p.run ts).result with
  | error e => simp only [hresult]
  | ok b =>
    simp only [hresult]
    rfl

theorem reports_extend {more : α → Token → Option (Parser α)}
    (hmore : ∀ a t p, more a t = some p → t.kind ≠ .endOfInput ∧ Reports many t.line p) (a : α) :
    Reports many lo (extend more a) := by
  intro ts hts
  -- what is left gets shorter with every turn
  induction hn : ts.length using Nat.strongRecOn generalizing a lo ts with
  | ind n ih =>
    cases ts with
    | nil => exact hts.elim
    | cons t ts =>
      cases hp : more a t with
      | none =>
        have hrun : (extend more a).run (t :: ts) = ⟨.ok a, [], t :: ts⟩ := by
          change extendRun more a (t :: ts) = _
          rw [extendRun, hp]
        rw [hrun]
        exact ⟨lo, hts, Nat.le_refl lo, .inr rfl⟩
      | some p =>
        obtain ⟨ht, hreports⟩ := hmore a t p hp
        rw [run_extend hp]
        refine ((hreports ts (hts.tail ht)).andThen fun b mid _ hrest => ?_).mono hts.1
        have hshorter : (p.run ts).rest.length < n := by
          rw [← hn, List.length_cons]
          exact Nat.lt_succ_of_le (p.suffix ts).length_le
        exact ih _ hshorter b _ hrest rfl

theorem reports_commaList {item : Parser α} (h : ∀ line, Reports False line item) :
    Reports False lo (commaList item) := by
  refine Reports.headed (fun t p hp => ?_) ((h lo).bind fun first => ?_)
  · split_ifs at hp with ht
    cases hp
    exact ⟨by simp [ht], reports_succeed _⟩
  · refine (reports_extend (fun items t p hp => ?_) [first]).bind fun items => ?_
    · split_ifs at hp with ht
      cases hp
      exact ⟨by simp [ht], (h _).map _⟩
    · exact (reports_expect _ (by decide)).map _

end Reports

/-! ## Expressions -/

section Expressions

theorem reports_leftAssoc {operand : Parser Expr} {join? : Token → Option (Expr → Expr → Expr)}
    (h : ∀ line, Reports False line operand)
    (hjoin : ∀ t join, join? t = some join → t.kind ≠ .endOfInput) (line : Nat) :
    Reports False line (leftAssoc operand join?) := by
  refine (h line).bind fun first => reports_extend (fun left t p hp => ?_) first
  obtain ⟨join, hjoined, rfl⟩ := Option.map_eq_some_iff.mp hp
  exact ⟨hjoin t join hjoined, (h _).map _⟩

theorem kind_of_joinBinary {ops : List BinaryOp} {t : Token} {join : Expr → Expr → Expr}
    (h : joinBinary ops t = some join) : t.kind ≠ .endOfInput := by
  intro hk
  simp [joinBinary, hk, binaryOp?] at h

theorem kind_of_joinLogical {kind : TokenKind} {op : LogicalOp} {t : Token}
    {join : Expr → Expr → Expr} (hkind : kind ≠ .endOfInput)
    (h : joinLogical kind op t = some join) : t.kind ≠ .endOfInput := by
  unfold joinLogical at h
  split_ifs at h with ht
  exact ht ▸ hkind

/-- The parsers one level further in report errors in order. -/
def ExprParsers.Reports (i : ExprParsers) : Prop :=
  ∀ line, Grammar.Reports False line i.unary ∧ Grammar.Reports False line i.assignment

section Levels

variable {inner : Option ExprParsers} (h : ∀ i ∈ inner, i.Reports) (line : Nat)
include h

theorem reports_wholeExpression : Reports False line (wholeExpression inner) := by
  intro ts hts
  cases ts with
  | nil => exact hts.elim
  | cons t ts =>
    have henter : Reports False t.line (enter inner t.line (·.assignment)) :=
      reports_enter fun i hi => (h i hi t.line).2
    exact (henter _ hts.head).mono hts.1

theorem reports_primary : Reports False line (primary inner) := by
  refine Reports.headed (fun t p hp => ?_) (reports_unexpected _)
  have hkind : t.kind ≠ .endOfInput := by
    intro hk
    simp only [hk] at hp
    cases hp
  refine ⟨hkind, ?_⟩
  split at hp
  case h_8 =>
    cases hp
    exact (reports_wholeExpression h t.line).bind fun e => (reports_expect _ (by decide)).map _
  case h_9 => cases hp
  all_goals
    cases hp
    exact reports_succeed _

theorem reports_call : Reports False line (call inner) := by
  refine (reports_primary h line).bind fun e => reports_extend (fun e t p hp => ?_) e
  unfold callSuffix at hp
  split at hp <;> rename_i ht <;> cases hp
  · refine ⟨by simp [ht], (reports_commaList (reports_wholeExpression h)).bind fun arguments => ?_⟩
    split_ifs
    · exact reports_fail rfl
    · exact reports_pure _
  · exact ⟨by simp [ht], (reports_name _).map _⟩

theorem reports_unary : Reports False line (unary inner) := by
  refine Reports.headed (fun t p hp => ?_) (reports_call h line)
  obtain ⟨op, hop, rfl⟩ := Option.map_eq_some_iff.mp hp
  refine ⟨fun hk => ?_, (reports_enter fun i hi => (h i hi t.line).1).map _⟩
  rw [hk] at hop
  cases hop

theorem reports_logicalOr : Reports False line (logicalOr inner) := by
  have hbinary : ∀ {operand : Parser Expr} {ops : List BinaryOp},
      (∀ line, Reports False line operand) →
        ∀ line, Reports False line (leftAssoc operand (joinBinary ops)) :=
    fun hoperand => reports_leftAssoc hoperand fun _ _ => kind_of_joinBinary
  have hequality : ∀ line, Reports False line (equality inner) :=
    hbinary (hbinary (hbinary (hbinary (reports_unary h))))
  have hand : ∀ line, Reports False line (logicalAnd inner) :=
    reports_leftAssoc hequality fun _ _ => kind_of_joinLogical (by decide)
  exact reports_leftAssoc hand (fun _ _ => kind_of_joinLogical (by decide)) line

theorem reports_assignment : Reports False line (assignment inner) := by
  refine (reports_logicalOr h line).bind fun target => ?_
  refine Reports.headed (fun t p hp => ?_) (reports_succeed target)
  split_ifs at hp with ht
  cases hp
  refine ⟨by simp [ht], (reports_enter fun i hi => (h i hi t.line).2).bind fun value => ?_⟩
  unfold assignTo
  split
  · exact reports_succeed _
  · exact reports_succeed _
  · exact reports_fail rfl

end Levels

theorem reports_exprLevel (room : Nat) : ∀ i ∈ exprLevel room, i.Reports := by
  induction room with
  | zero => exact nofun
  | succ room ih =>
    rintro i ⟨⟩ line
    exact ⟨reports_unary ih line, reports_assignment ih line⟩

/-- **An expression reports one error at most**, between its first line and the next token. -/
theorem reports_expression (room line : Nat) : Reports False line (expression room) :=
  reports_wholeExpression (reports_exprLevel room) line

end Expressions

/-! ## Lists of statements -/

/-- The end of input is never dropped. -/
theorem Lined.synchronize {lo : Nat} {ts : List Token} (h : Lined lo ts) (depth : Nat) :
    Lined lo (synchronize depth ts) := by
  fun_induction Grammar.synchronize depth ts generalizing lo with
  | case1 => exact h
  | case2 => exact h
  | case3 depth t ts hstop => exact (h.tail fun hend => hstop (.inl hend)).mono h.1
  | case4 depth t ts hstop =>
    rename_i ih
    exact (ih (h.tail fun hend => hstop (.inl hend))).mono h.1

section Lists

variable {p : Consuming Stmt} {lo : Nat} {ts : List Token}

theorem Lined.recovering {q : Parser Stmt} (hq : Reports True lo q) (h : Lined lo ts) :
    ∃ hi, Lined hi (recovering q ts).rest ∧ Ascending lo hi (recovering q ts).errors := by
  obtain ⟨hi, hrest, herrors, -⟩ := hq ts h
  unfold Grammar.recovering
  unfold Reply.errors at herrors
  dsimp only
  split at herrors <;> rename_i hresult <;> simp only [hresult]
  · exact ⟨hi, hrest, herrors⟩
  · exact ⟨hi, hrest.synchronize 0, herrors⟩

/-- **Statements report errors in order**, one statement after another. -/
theorem Lined.statements (hp : ∀ line, Reports True line p.toParser) (h : Lined lo ts) :
    ∃ hi, Lined hi (statements p ts).rest ∧ Ascending lo hi (statements p ts).errors := by
  fun_induction Grammar.statements p ts generalizing lo with
  | case1 => exact h.elim
  | case2 t ts hends => exact ⟨lo, h, Nat.le_refl lo⟩
  | case3 t ts hends =>
    rename_i ih
    obtain ⟨mid, hmid, herrors⟩ := h.recovering (hp lo)
    obtain ⟨hi, hrest, hmore⟩ := ih hmid
    exact ⟨hi, hrest, herrors.append hmore⟩

theorem reports_blockBody (hp : ∀ line, Reports True line p.toParser) :
    Reports True lo (blockBody p) := by
  have hlist : Reports True lo (statementList p) := by
    intro ts hts
    obtain ⟨hi, hrest, herrors⟩ := hts.statements hp
    exact ⟨hi, hrest, herrors, .inl trivial⟩
  exact hlist.after fun _ _ => (reports_expect _ (by decide)).map _

end Lists

/-! ## Statements -/

section Statements

/-- The parsers one level further in. -/
structure StmtParsers.Reports (i : StmtParsers) : Prop where
  expression (line : Nat) : Grammar.Reports False line i.expression
  statement (line : Nat) : Grammar.Reports True line i.statement.toParser
  declaration (line : Nat) : Grammar.Reports True line i.declaration.toParser

section Forms

variable {inner : StmtParsers} (h : inner.Reports) (line : Nat) {lo : Nat}
include h

theorem reports_conditional : Reports True lo (conditional inner line) := by
  -- the first branch may have recovered from errors, so the second one starts at the next token
  refine (h.expression lo).bind fun condition => (h.statement lo).after fun yes mid => ?_
  refine Reports.headed (fun t p hp => ?_) (reports_succeed _)
  split_ifs at hp with ht
  cases hp
  exact ⟨by simp [ht], (h.statement _).map _⟩

theorem reports_whileLoop : Reports True lo (whileLoop inner line) :=
  (h.expression lo).bind fun _ => (h.statement lo).map _

theorem reports_forLoop : Reports True lo (forLoop inner line) :=
  (reports_name _).bind fun _ => (reports_expect _ (by decide)).bind fun _ =>
    (h.expression lo).bind fun _ => (h.statement lo).map _

theorem reports_giveBack : Reports True lo (giveBack inner line) := by
  refine Reports.headed (fun t p hp => ?_) ?_
  · split_ifs at hp with ht
    cases hp
    exact ⟨by simp [ht], reports_succeed _⟩
  · exact (h.expression lo).bind fun _ => (reports_expect _ (by decide)).map _

theorem reports_expressionStatement : Reports True lo (expressionStatement inner line) :=
  (h.expression lo).bind fun _ => (reports_expect _ (by decide)).map _

end Forms

theorem reports_statementWith {inner : Option StmtParsers} (h : ∀ i ∈ inner, i.Reports)
    (line : Nat) : Reports True line (statementWith inner).toParser := by
  intro ts hts
  cases ts with
  | nil => exact hts.elim
  | cons t ts =>
    have henter : Reports True t.line (enter inner t.line fun i =>
        headed (keywordStatement? i) (expressionStatement i t.line)) := by
      refine reports_enter fun i hi => ?_
      refine Reports.headed (fun t' p hp => ?_) (reports_expressionStatement (h i hi) _)
      unfold keywordStatement? at hp
      split at hp <;> rename_i ht' <;> cases hp <;> refine ⟨by simp [ht'], ?_⟩
      · exact (reports_blockBody (h i hi).declaration).map _
      · exact reports_conditional (h i hi) _
      · exact reports_whileLoop (h i hi) _
      · exact reports_forLoop (h i hi) _
      · exact reports_giveBack (h i hi) _
    exact (henter _ hts.head).mono hts.1

/-- Up to its parameters a function has reported nothing, so that it may be reported itself. -/
theorem reports_function {inner : Option StmtParsers} (h : ∀ i ∈ inner, i.Reports) (line : Nat) :
    Reports True line (function inner line) := by
  refine (reports_name _).bind fun functionName => ?_
  refine (reports_expect _ (by decide)).bind fun _ => ?_
  refine (reports_commaList fun _ => reports_name _).bind fun params => ?_
  -- both the parameters and the depth are reported on the line of the keyword
  split_ifs
  · exact reports_fail rfl
  refine reports_enter fun i hi => Reports.map ?_ _
  refine Reports.headed (fun t p hp => ?_) (((h i hi).statement line).map _)
  split_ifs at hp with ht
  cases hp
  exact ⟨by simp [ht], reports_blockBody (h i hi).declaration⟩

theorem reports_variableDeclaration {expression : Parser Expr}
    (h : ∀ line, Reports False line expression) (line : Nat) {lo : Nat} :
    Reports True lo (variableDeclaration expression line) := by
  refine (reports_name _).bind fun variableName => ?_
  refine Reports.bind ?_ fun initial => (reports_expect _ (by decide)).map _
  refine Reports.headed (fun t p hp => ?_) (reports_succeed none)
  split_ifs at hp with ht
  cases hp
  exact ⟨by simp [ht], (h _).map _⟩

theorem reports_declarationWith {expression : Parser Expr} {inner : Option StmtParsers}
    (hexpression : ∀ line, Reports False line expression) (h : ∀ i ∈ inner, i.Reports)
    (line : Nat) : Reports True line (declarationWith expression inner).toParser := by
  refine Reports.headed (fun t p hp => ?_) (reports_statementWith h line)
  split at hp <;> rename_i ht <;> cases hp
  · exact ⟨by simp [ht], reports_function h t.line⟩
  · exact ⟨by simp [ht], reports_variableDeclaration hexpression t.line⟩

theorem reports_stmtLevel (room : Nat) : ∀ i ∈ stmtLevel room, i.Reports := by
  induction room with
  | zero => exact nofun
  | succ room ih =>
    rintro i ⟨⟩
    exact ⟨reports_expression room, reports_statementWith ih,
      reports_declarationWith (reports_expression room) ih⟩

theorem reports_declaration (room line : Nat) : Reports True line (declaration room).toParser :=
  reports_declarationWith (reports_expression room) (reports_stmtLevel room) line

end Statements

/-! ## Programs -/

theorem Lined.program {p : Consuming Stmt} {lo : Nat} {ts : List Token}
    (hp : ∀ line, Reports True line p.toParser) (h : Lined lo ts) :
    ∃ hi, Lined hi (program p ts).rest ∧ Ascending lo hi (program p ts).errors ∧
      (program p ts).rest <:+ ts := by
  induction hn : ts.length using Nat.strongRecOn generalizing lo ts with
  | ind n ih =>
    obtain ⟨mid, hmid, herrors⟩ := h.statements hp
    by_cases hbrace : ∀ t ∈ (Grammar.statements p ts).rest.head?, t.kind ≠ .rightBrace
    · rw [program_of_end hbrace]
      exact ⟨mid, hmid, herrors, statements_suffix p ts⟩
    -- a closing brace that nothing opened is reported, and all goes on behind it
    · push Not at hbrace
      obtain ⟨t, ht, hkind⟩ := hbrace
      obtain ⟨rest, hrest⟩ := List.head?_eq_some_iff.mp ht
      have hsuffix := statements_suffix p ts
      rw [hrest] at hmid hsuffix
      obtain ⟨hi, hlast, hmore, hend⟩ := ih rest.length (hn ▸ hsuffix.length_le)
        (hmid.tail (by simp [hkind])) rfl
      rw [program_of_brace hrest hkind]
      refine ⟨hi, hlast, herrors.append ⟨?_, ?_⟩,
        (hend.trans (List.suffix_cons t rest)).trans hsuffix⟩
      · exact hmid.1.trans (line_unexpectedAt .statement t rest).ge
      · rwa [line_unexpectedAt]

/-- **The errors of a program are on ascending lines**, none behind the last token. -/
theorem ascending_parse {lo : Nat} {ts : List Token} {es : List ParseError} (h : Lined lo ts)
    (hparse : parse ts = .error es) : ∃ t ∈ ts, Ascending lo t.line es := by
  obtain ⟨hi, hrest, herrors, hsuffix⟩ := h.program (reports_declaration maxNesting)
  unfold parse at hparse
  dsimp only at hparse
  split_ifs at hparse
  cases hparse
  cases hlast : (Grammar.program (declaration maxNesting) ts).rest with
  | nil =>
    rw [hlast] at hrest
    exact hrest.elim
  | cons t rest =>
    rw [hlast] at hrest hsuffix
    exact ⟨t, hsuffix.subset List.mem_cons_self, herrors.upTo hrest.1⟩

end Grammar

end Scriptlet
