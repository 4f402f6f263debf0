import Scriptlet.Proofs.Grammar.Limits
import Scriptlet.Proofs.Grammar.Soundness
import Scriptlet.Proofs.Tree.Unbound
import Scriptlet.Proofs.Tree.Unlined

/-!
# Programs that can be parsed

Every arranged program can be written down, and its tokens are parsed if and only if it stays within
the limits. That nothing else is read from the tokens of a program beyond the limits takes two
steps: whether a program fits can be told from its tokens, and two programs that fit and are written
by the same tokens are both read by the parsers with room enough for them, so they are equal.

* `Stmt.allTokens`: **the tokens of a program**.
* `Stmt.chained_allTokens`: they write it.
* `Chained.unique`: the same tokens do not write two well-formed programs.
* `parse_tokens`: **parsing is complete, with exact limits**.
-/

namespace Scriptlet

open Grammar (unaryOp? binaryOp?)

/-! ## The tokens of a tree -/

namespace Token

/-- A token that always looks the same. -/
def ofKind (kind : TokenKind) : Token := ⟨kind, "", none, 0⟩

def ofName (name : String) : Token := ⟨.identifier, name, none, 0⟩

end Token

def Literal.kind : Literal → TokenKind
  | .number _ => .number
  | .string _ => .doubleQuoted
  | .bool true => .kwTrue
  | .bool false => .kwFalse
  | .null => .kwNull

/-- The token of a constant. -/
def Literal.token (v : Literal) : Token := ⟨v.kind, v.text, some v, 0⟩

def UnaryOp.kind : UnaryOp → TokenKind
  | .negate => .minus
  | .not => .bang

def BinaryOp.kind : BinaryOp → TokenKind
  | .add => .plus
  | .sub => .minus
  | .mul => .star
  | .div => .slash
  | .less => .less
  | .greater => .greater
  | .lessEqual => .lessEqual
  | .greaterEqual => .greaterEqual
  | .equal => .equalEqual
  | .notEqual => .bangEqual

theorem Literal.isLiteral_kind (v : Literal) : v.kind.isLiteral := by
  rcases v with _ | _ | (_ | _) | _ <;> rfl

theorem UnaryOp.unaryOp?_kind (op : UnaryOp) : unaryOp? op.kind = some op := by cases op <;> rfl

theorem BinaryOp.binaryOp?_kind (op : BinaryOp) : binaryOp? op.kind = some op := by cases op <;> rfl

mutual

/-- The tokens of an expression. -/
def Expr.tokens : Expr → List Token
  | .literal _ v => [v.token]
  | .var _ name _ => [.ofName name]
  | .group _ e => .ofKind .leftParen :: e.tokens ++ [.ofKind .rightParen]
  | .call _ c args =>
    c.tokens ++ .ofKind .leftParen :: Expr.listTokens args ++ [.ofKind .rightParen]
  | .get _ name o => o.tokens ++ [.ofKind .dot, .ofName name]
  | .unary _ op e => .ofKind op.kind :: e.tokens
  | .binary _ op l r => l.tokens ++ .ofKind op.kind :: r.tokens
  | .logical _ op l r => l.tokens ++ .ofKind op.keyword :: r.tokens
  | .assign _ name _ v => .ofName name :: .ofKind .equal :: v.tokens
  | .set _ name o v => o.tokens ++ .ofKind .dot :: .ofName name :: .ofKind .equal :: v.tokens

/-- The tokens of expressions between commas. -/
def Expr.listTokens : List Expr → List Token
  | [] => []
  | e :: es => e.tokens ++ Expr.commaTokens es

/-- The tokens of expressions, each after a comma. -/
def Expr.commaTokens : List Expr → List Token
  | [] => []
  | e :: es => .ofKind .comma :: e.tokens ++ Expr.commaTokens es

end

/-- The tokens of names between commas. -/
def nameTokens : List String → List Token
  | [] => []
  | name :: names => .ofName name :: names.flatMap fun name => [.ofKind .comma, .ofName name]

mutual

/-- The tokens of a statement; a function has its body in braces. -/
def Stmt.tokens : Stmt → List Token
  | .block _ body => .ofKind .leftBrace :: Stmt.allTokens body ++ [.ofKind .rightBrace]
  | .expression _ e => e.tokens ++ [.ofKind .semicolon]
  | .function _ name params body =>
    .ofKind .kwFun :: .ofName name :: .ofKind .leftParen :: nameTokens params ++
      .ofKind .rightParen :: .ofKind .leftBrace :: Stmt.allTokens body ++ [.ofKind .rightBrace]
  | .ifThen _ c yes => .ofKind .kwIf :: c.tokens ++ yes.tokens
  | .ifElse _ c yes no =>
    .ofKind .kwIf :: c.tokens ++ yes.tokens ++ .ofKind .kwElse :: no.tokens
  | .giveBack _ none => [.ofKind .kwReturn, .ofKind .semicolon]
  | .giveBack _ (some e) => .ofKind .kwReturn :: e.tokens ++ [.ofKind .semicolon]
  | .declare _ name none => [.ofKind .kwVar, .ofName name, .ofKind .semicolon]
  | .declare _ name (some e) =>
    .ofKind .kwVar :: .ofName name :: .ofKind .equal :: e.tokens ++ [.ofKind .semicolon]
  | .whileLoop _ c body => .ofKind .kwWhile :: c.tokens ++ body.tokens
  | .forLoop _ name e body =>
    .ofKind .kwFor :: .ofName name :: .ofKind .kwIn :: e.tokens ++ body.tokens

/-- **The tokens of a program.** -/
def Stmt.allTokens : List Stmt → List Token
  | [] => []
  | s :: ss => s.tokens ++ Stmt.allTokens ss

end

/-- The tree that the tokens of an expression write: it has no bindings, and everything stands on
one line. -/
def Expr.plain (e : Expr) : Expr := e.unbound.unlinedWith (.literal 0)

def Stmt.plain (s : Stmt) : Stmt := s.unbound.unlinedWith (.literal 0)

mutual

theorem Expr.written_tokens : ∀ e : Expr, e.plain.Written e.tokens
  | .literal _ v => .literal (t := v.token) v.isLiteral_kind
  | .var _ name _ => .var (t := .ofName name) rfl
  | .group _ e => .group (l := .ofKind _) rfl e.written_tokens rfl
  | .call _ c args => .call (l := .ofKind _) c.written_tokens rfl (Expr.listed_tokens args) rfl
  | .get _ name o => .get (d := .ofKind _) (n := .ofName name) o.written_tokens rfl rfl
  | .unary _ op e => .unary (t := .ofKind _) op.unaryOp?_kind e.written_tokens
  | .binary _ op l r =>
    .binary (t := .ofKind _) l.written_tokens op.binaryOp?_kind r.written_tokens
  | .logical _ _ l r => .logical (t := .ofKind _) l.written_tokens rfl r.written_tokens
  | .assign _ name _ v => .assign (n := .ofName name) rfl rfl v.written_tokens
  | .set _ name o v =>
    .set (d := .ofKind _) (n := .ofName name) o.written_tokens rfl rfl rfl v.written_tokens

theorem Expr.listed_tokens : ∀ es : List Expr,
    Listed Expr.Written (Expr.allUnlinedWith (.literal 0) (Expr.allUnbound es))
      (Expr.listTokens es)
  | [] => .nil
  | e :: es => .cons e.written_tokens (Expr.commas_tokens es)

theorem Expr.commas_tokens : ∀ es : List Expr,
    Commas Expr.Written (Expr.allUnlinedWith (.literal 0) (Expr.allUnbound es))
      (Expr.commaTokens es)
  | [] => .nil
  | e :: es => .cons rfl e.written_tokens (Expr.commas_tokens es)

end

theorem Expr.exists_tokens_eq_cons : ∀ e : Expr, ∃ t us, e.tokens = t :: us ∧ t.line = 0
  | .literal .. | .var .. | .group .. | .unary .. | .assign .. => ⟨_, _, rfl, rfl⟩
  | .call _ e _ | .get _ _ e | .binary _ _ e _ | .logical _ _ e _ | .set _ _ e _ => by
    obtain ⟨t, us, htokens, hline⟩ := e.exists_tokens_eq_cons
    rw [Expr.tokens, htokens]
    exact ⟨t, _, rfl, hline⟩

theorem listed_nameTokens (names : List String) : Listed NameWritten names (nameTokens names) := by
  have hname : ∀ name, NameWritten name [.ofName name] := fun name => ⟨_, rfl, rfl, rfl⟩
  have hcommas : ∀ names : List String, Commas NameWritten names
      (names.flatMap fun name => [.ofKind .comma, .ofName name]) := by
    intro names
    induction names with
    | nil => exact .nil
    | cons name names ih => exact .cons rfl (hname name) ih
  cases names with
  | nil => exact .nil
  | cons name names => exact .cons (hname name) (hcommas names)

mutual

theorem Stmt.written_tokens : ∀ s : Stmt, s.plain.Written s.tokens
  | .block _ body => .block (l := .ofKind _) rfl (Stmt.chained_allTokens body) rfl
  | .expression _ e => by
    obtain ⟨t, us, htokens, hline⟩ := e.exists_tokens_eq_cons
    have hwritten := e.written_tokens
    rw [htokens] at hwritten
    have hstatement := Stmt.Written.expression (q := .ofKind .semicolon) hwritten rfl
    rw [hline, ← htokens] at hstatement
    exact hstatement
  | .function _ name params body =>
    .function (f := .ofKind _) (n := .ofName name) rfl rfl rfl (listed_nameTokens params) rfl rfl
      (Stmt.chained_allTokens body) rfl
  | .ifThen _ c yes => .ifThen (t := .ofKind _) rfl c.written_tokens yes.written_tokens
  | .ifElse _ c yes no =>
    .ifElse (t := .ofKind _) rfl c.written_tokens yes.written_tokens rfl no.written_tokens
  | .giveBack _ none => .giveBackNothing (t := .ofKind _) rfl rfl
  | .giveBack _ (some e) => .giveBack (t := .ofKind _) rfl e.written_tokens rfl
  | .declare _ name none => .declareNull (t := .ofKind _) (n := .ofName name) rfl rfl rfl
  | .declare _ name (some e) =>
    .declare (t := .ofKind _) (n := .ofName name) rfl rfl rfl e.written_tokens rfl
  | .whileLoop _ c body => .whileLoop (t := .ofKind _) rfl c.written_tokens body.written_tokens
  | .forLoop _ name e body =>
    .forLoop (t := .ofKind _) (n := .ofName name) rfl rfl rfl e.written_tokens body.written_tokens

/-- **The tokens of a program write it**, without bindings and on one line. -/
theorem Stmt.chained_allTokens : ∀ ss : List Stmt,
    Chained Stmt.Written (Stmt.unlined (Stmt.allUnbound ss)) (Stmt.allTokens ss)
  | [] => .nil
  | s :: ss => .cons s.written_tokens (Stmt.chained_allTokens ss)

end

/-! ## Lines do not matter to the limits -/

mutual

theorem Expr.fits_unlined : ∀ e : Expr, (e.unlinedWith (.literal 0)).fits = e.fits
  | .literal .. | .var .. => rfl
  | .assign _ _ _ e | .get _ _ e | .group _ e | .unary _ _ e => by
    simp [Expr.unlinedWith, Expr.fits, Expr.fits_unlined e]
  | .binary _ _ l r | .logical _ _ l r | .set _ _ l r => by
    simp [Expr.unlinedWith, Expr.fits, Expr.fits_unlined l, Expr.fits_unlined r]
  | .call _ callee arguments => by
    simp [Expr.unlinedWith, Expr.fits, Expr.length_allUnlinedWith, Expr.fits_unlined callee,
      Expr.allFit_unlined arguments]

theorem Expr.allFit_unlined :
    ∀ es : List Expr, Expr.allFit (Expr.allUnlinedWith (.literal 0) es) = Expr.allFit es
  | [] => rfl
  | e :: es => by
    simp [Expr.allUnlinedWith, Expr.allFit, Expr.fits_unlined e, Expr.allFit_unlined es]

end

mutual

theorem Stmt.fits_unlined : ∀ s : Stmt, (s.unlinedWith (.literal 0)).fits = s.fits
  | .block _ body | .function _ _ _ body => by
    simp [Stmt.unlinedWith, Stmt.fits, Stmt.allFit_unlined body]
  | .expression .. | .giveBack _ (some _) | .declare _ _ (some _) => by
    simp [Stmt.unlinedWith, Stmt.fits, Expr.fits_unlined]
  | .giveBack _ none | .declare _ _ none => rfl
  | .ifThen _ _ s | .whileLoop _ _ s | .forLoop _ _ _ s => by
    simp [Stmt.unlinedWith, Stmt.fits, Expr.fits_unlined, Stmt.fits_unlined s]
  | .ifElse _ _ yes no => by
    simp [Stmt.unlinedWith, Stmt.fits, Expr.fits_unlined, Stmt.fits_unlined yes,
      Stmt.fits_unlined no]

theorem Stmt.allFit_unlined :
    ∀ ss : List Stmt, Stmt.allFit (Stmt.allUnlinedWith (.literal 0) ss) = Stmt.allFit ss
  | [] => rfl
  | s :: ss => by
    simp [Stmt.allUnlinedWith, Stmt.allFit, Stmt.fits_unlined s, Stmt.allFit_unlined ss]

end

mutual

theorem Expr.arranged_unlined : ∀ e : Expr, (e.unlinedWith (.literal 0)).Arranged ↔ e.Arranged
  | .literal .. | .var .. => Iff.rfl
  | .assign _ _ _ e | .get _ _ e | .group _ e | .unary _ _ e => by
    simp [Expr.unlinedWith, Expr.Arranged, Expr.level_unlinedWith fun _ => .literal,
      Expr.arranged_unlined e]
  | .binary _ _ l r | .logical _ _ l r | .set _ _ l r => by
    simp [Expr.unlinedWith, Expr.Arranged, Expr.level_unlinedWith fun _ => .literal,
      Expr.arranged_unlined l, Expr.arranged_unlined r]
  | .call _ callee arguments => by
    simp [Expr.unlinedWith, Expr.Arranged, Expr.level_unlinedWith fun _ => .literal,
      Expr.arranged_unlined callee, Expr.allArranged_unlined arguments]

theorem Expr.allArranged_unlined : ∀ es : List Expr,
    Expr.AllArranged (Expr.allUnlinedWith (.literal 0) es) ↔ Expr.AllArranged es
  | [] => Iff.rfl
  | e :: es => by
    simp [Expr.allUnlinedWith, Expr.AllArranged, Expr.arranged_unlined e,
      Expr.allArranged_unlined es]

end

mutual

theorem Stmt.arranged_unlined : ∀ s : Stmt, (s.unlinedWith (.literal 0)).Arranged ↔ s.Arranged
  | .block _ body | .function _ _ _ body => by
    simp [Stmt.unlinedWith, Stmt.Arranged, Stmt.allArranged_unlined body]
  | .expression .. | .giveBack _ (some _) | .declare _ _ (some _) => by
    simp [Stmt.unlinedWith, Stmt.Arranged, Expr.arranged_unlined]
  | .giveBack _ none | .declare _ _ none => Iff.rfl
  | .ifThen _ _ s | .whileLoop _ _ s | .forLoop _ _ _ s => by
    simp [Stmt.unlinedWith, Stmt.Arranged, Expr.arranged_unlined,
      Stmt.follows_unlinedWith fun _ => .literal, Stmt.arranged_unlined s]
  | .ifElse _ _ yes no => by
    simp [Stmt.unlinedWith, Stmt.Arranged, Expr.arranged_unlined,
      Stmt.follows_unlinedWith fun _ => .literal, Stmt.endsOpen_unlinedWith,
      Stmt.isDeclaration_unlinedWith, Stmt.arranged_unlined yes, Stmt.arranged_unlined no]

theorem Stmt.allArranged_unlined : ∀ ss : List Stmt,
    Stmt.AllArranged (Stmt.allUnlinedWith (.literal 0) ss) ↔ Stmt.AllArranged ss
  | [] => Iff.rfl
  | s :: ss => by
    simp [Stmt.allUnlinedWith, Stmt.AllArranged, Stmt.arranged_unlined s,
      Stmt.allArranged_unlined ss]

end

theorem Stmt.limits_of_unlined {ss ss' : List Stmt} (h : Stmt.unlined ss' = Stmt.unlined ss) :
    (Stmt.AllArranged ss' ↔ Stmt.AllArranged ss) ∧ Stmt.allFit ss' = Stmt.allFit ss ∧
      Stmt.bodyDepth ss' = Stmt.bodyDepth ss := by
  have hliteral : ∀ v, (Expr.literal 0 v).IsAtom := fun _ => .literal
  refine ⟨?_, ?_, ?_⟩
  · rw [← Stmt.allArranged_unlined ss', ← Stmt.unlined, h, Stmt.unlined, Stmt.allArranged_unlined]
  · rw [← Stmt.allFit_unlined ss', ← Stmt.unlined, h, Stmt.unlined, Stmt.allFit_unlined]
  · rw [← Stmt.bodyDepth_unlinedWith hliteral ss', ← Stmt.unlined, h, Stmt.unlined,
      Stmt.bodyDepth_unlinedWith hliteral]

/-! ## Programs within the limits and beyond -/

/-- **Tokens write at most one well-formed program.** -/
theorem Chained.unique {ss ss' : List Stmt} {us : List Token} (h : Chained Stmt.Written ss us)
    (h' : Chained Stmt.Written ss' us) (hwell : Stmt.AllWellFormed ss)
    (hwell' : Stmt.AllWellFormed ss') : ss = ss' := by
  -- parsers with room for both programs read both from the same tokens
  let room := max (Stmt.bodyDepth ss) (Stmt.bodyDepth ss')
  have hreads : ∀ {ss}, Chained Stmt.Written ss us → Stmt.AllWellFormed ss →
      Stmt.bodyDepth ss ≤ room →
      Grammar.statements (Grammar.declaration room) us = ⟨ss, [], []⟩ := by
    intro ss h hwell hdepth
    refine (Grammar.statements_eq (Grammar.readsSentences room).declaration).mpr
      ⟨us, (List.append_nil us).symm, Grammar.chained_sentence_iff.mpr ⟨h, hwell, hdepth⟩, ?_⟩
    rintro _ ⟨⟩
  have hread := hreads h hwell (Nat.le_max_left _ _)
  rw [hreads h' hwell' (Nat.le_max_right _ _)] at hread
  exact (congrArg Grammar.Batch.statements hread).symm

/-- What is parsed from the tokens of an arranged program is that program, which is then within the
limits. -/
theorem Chained.of_parse {ss ss' : List Stmt} {us : List Token} {last : Token}
    (h : Chained Stmt.Written ss us) (harranged : Stmt.AllArranged ss)
    (hlast : last.kind = .endOfInput) (hparse : Grammar.parse (us ++ [last]) = .ok ss') :
    ss' = ss ∧ Stmt.allFit ss ∧ Stmt.bodyDepth ss ≤ maxNesting := by
  obtain ⟨used, rest, heq, hchain, hrest⟩ := Grammar.parse_eq_ok.mp hparse
  obtain ⟨hwritten, hwell, hdepth⟩ := Grammar.chained_sentence_iff.mp hchain
  obtain rfl := used_eq_of_parse heq h.ne_endOfInput hlast hwritten hrest
  have hfits : Stmt.allFit ss := by
    rw [h.allFit_congr hwritten]
    exact ((Stmt.allWellFormed_iff_arranged ss').mp hwell).2
  have hwell' := (Stmt.allWellFormed_iff_arranged ss).mpr ⟨harranged, hfits⟩
  obtain rfl := h.unique hwritten hwell' hwell
  exact ⟨rfl, hfits, hdepth⟩

/-- **Parsing is complete, with exact limits.** Every arranged program without bindings is written
by its tokens. Whichever tokens write it, with the lines they have: if it stays within the limits on
arguments, parameters and nesting then exactly this program is parsed from them, and else they are
rejected. -/
theorem parse_tokens {ss : List Stmt} (hunbound : Stmt.allUnbound ss = ss)
    (harranged : Stmt.AllArranged ss) :
    Chained Stmt.Written (Stmt.unlined ss) (Stmt.allTokens ss) ∧
      ∀ us ss' last, Chained Stmt.Written ss' us → Stmt.unlined ss' = Stmt.unlined ss →
        last.kind = .endOfInput →
        (Stmt.allFit ss ∧ Stmt.bodyDepth ss ≤ maxNesting →
            Grammar.parse (us ++ [last]) = .ok ss') ∧
          (¬ (Stmt.allFit ss ∧ Stmt.bodyDepth ss ≤ maxNesting) →
            ∃ es, Grammar.parse (us ++ [last]) = .error es) := by
  constructor
  · have htokens := Stmt.chained_allTokens ss
    rwa [hunbound] at htokens
  · intro us ss' last hwritten hsame hlast
    obtain ⟨harranged', hfits', hdepth'⟩ := Stmt.limits_of_unlined hsame
    rw [← hfits', ← hdepth']
    rw [← harranged'] at harranged
    constructor
    · rintro ⟨hfits, hdepth⟩
      have hwell := (Stmt.allWellFormed_iff_arranged ss').mpr ⟨harranged, hfits⟩
      refine Grammar.parse_eq_ok.mpr ⟨us, [last], rfl,
        Grammar.chained_sentence_iff.mpr ⟨hwritten, hwell, hdepth⟩, ?_⟩
      rintro _ ⟨⟩
      exact hlast
    · intro hbeyond
      cases hparse : Grammar.parse (us ++ [last]) with
      | error es => exact ⟨es, rfl⟩
      | ok ss'' => exact absurd (hwritten.of_parse harranged hlast hparse).2 hbeyond

/-- A name behind `n` operators. -/
def negations : Nat → Expr
  | 0 => .var 0 "x" .unresolved
  | n + 1 => .unary 0 .not (negations n)

/-- There is room for 62 operators in a statement, and not for 63. -/
theorem parse_tokens_negations :
    Grammar.parse (Stmt.allTokens [.expression 0 (negations 62)] ++ [.endOfInput 0]) =
        .ok [.expression 0 (negations 62)] ∧
      ∃ es, Grammar.parse (Stmt.allTokens [.expression 0 (negations 63)] ++ [.endOfInput 0]) =
        .error es := by
  have harranged : ∀ n, Stmt.AllArranged [.expression 0 (negations n)] := by
    intro n
    have hlevel : ∀ n, 7 ≤ (negations n).level := by rintro (_ | n) <;> simp [negations, Expr.level]
    refine ⟨?_, trivial⟩
    induction n with
    | zero => trivial
    | succ n ih => exact ⟨hlevel n, ih⟩
  obtain ⟨hwritten, hwithin⟩ := parse_tokens rfl (harranged 62)
  obtain ⟨hwritten', hbeyond⟩ := parse_tokens rfl (harranged 63)
  exact ⟨(hwithin _ _ _ hwritten rfl rfl).1 ⟨rfl, by decide⟩,
    (hbeyond _ _ _ hwritten' rfl rfl).2 (by decide)⟩

end Scriptlet
