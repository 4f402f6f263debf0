import Mathlib.Logic.Relation
import Scriptlet.Proofs.Grammar.ErrorOrder

/-!
# Braces stay aligned

No parser takes the end of input or a closing brace that it did not open itself, and it leaves a
brace open only if it fails at the end of input. The same holds of what is dropped after an error,
so that an attempt at a statement takes whole pairs of braces, whatever the tokens are.

* `takeAll?`: the number of open braces behind some tokens, if all of them may be taken.
* `Passes`: tokens are passed that may be taken, and all braces are closed or the end is met.
* `Aligned`: **a parser passes such tokens only**, with or without success.
* `Attempt`, `Turn`: one turn of the loops over the statements of a block and of a program.
* `reading_ends_aligned`: **every turn takes a token**, both loops end, and braces stay aligned.
-/

namespace Scriptlet

namespace Grammar

open Relation (ReflTransGen)
open Scriptlet.Parser

/-! ## Tokens that may be taken -/

/-- The number of open braces behind a token that may be taken: it is not the end of input, and it
closes no brace unless one is open. -/
def take? (depth : Nat) (kind : TokenKind) : Option Nat :=
  if kind = .endOfInput ∨ (kind = .rightBrace ∧ depth = 0) then none
  else some (braceDepth depth kind)

/-- The number of open braces behind tokens that may be taken one after another. -/
def takeAll? (depth : Nat) (us : List Token) : Option Nat :=
  us.foldlM (fun depth t => take? depth t.kind) depth

section Taking

variable {depth k : Nat} {kind : TokenKind} {us vs : List Token}

theorem take?_eq_some (h : take? depth kind = some k) :
    kind ≠ .endOfInput ∧ (kind = .rightBrace → 0 < depth) ∧ k = braceDepth depth kind := by
  unfold take? at h
  split_ifs at h with hstop
  cases h
  refine ⟨fun hend => hstop (.inl hend), fun hright => ?_, rfl⟩
  exact Nat.pos_of_ne_zero fun hdepth => hstop (.inr ⟨hright, hdepth⟩)

theorem take?_of_plain {t : Token} (hplain : Plain t) (hend : t.kind ≠ .endOfInput) :
    take? depth t.kind = some depth := by
  rw [take?, if_neg, braceDepth_of_plain hplain]
  exact not_or.mpr ⟨hend, fun hstop => hplain.2.1 hstop.1⟩

theorem take?_add (h : take? depth kind = some k) (n : Nat) :
    take? (depth + n) kind = some (k + n) := by
  obtain ⟨hend, hright, rfl⟩ := take?_eq_some h
  rw [take?, if_neg]
  · by_cases hbrace : kind = .rightBrace
    · have hdepth := hright hbrace
      simp only [hbrace, braceDepth, Option.some.injEq]
      omega
    by_cases hleft : kind = .leftBrace
    · simp only [hleft, braceDepth, Option.some.injEq]
      omega
    · cases kind <;> simp_all [braceDepth]
  · rintro (heof | ⟨hbrace, hdepth⟩)
    · exact hend heof
    · have hpositive := hright hbrace
      omega

theorem takeAll?_cons (depth : Nat) (t : Token) (us : List Token) :
    takeAll? depth (t :: us) = (take? depth t.kind).bind (takeAll? · us) := rfl

theorem takeAll?_append (depth : Nat) (us vs : List Token) :
    takeAll? depth (us ++ vs) = (takeAll? depth us).bind (takeAll? · vs) :=
  List.foldlM_append ..

theorem takeAll?_add (h : takeAll? depth us = some k) (n : Nat) :
    takeAll? (depth + n) us = some (k + n) := by
  induction us generalizing depth with
  | nil => cases h; rfl
  | cons t us ih =>
    rw [takeAll?_cons] at h ⊢
    obtain ⟨d, ht, hus⟩ := Option.bind_eq_some_iff.mp h
    rw [take?_add ht n]
    exact ih hus

theorem noEnd_of_takeAll? (h : takeAll? depth us = some k) : ∀ t ∈ us, t.kind ≠ .endOfInput := by
  induction us generalizing depth with
  | nil => exact List.forall_mem_nil _
  | cons t us ih =>
    obtain ⟨d, ht, hus⟩ := Option.bind_eq_some_iff.mp h
    exact List.forall_mem_cons.mpr ⟨(take?_eq_some ht).1, ih hus⟩

/-- The braces that are open behind some tokens are those that were opened and not closed. -/
theorem closed_of_takeAll? (h : takeAll? depth us = some k) :
    closed us + k = depth + opened us := by
  induction us generalizing depth with
  | nil => cases h; simp [closed, opened]
  | cons t us ih =>
    obtain ⟨d, ht, hus⟩ := Option.bind_eq_some_iff.mp h
    obtain ⟨-, hright, rfl⟩ := take?_eq_some ht
    have hcons := closed_cons hright us
    have hrest := ih hus
    omega

/-- **Every closing brace closes one that was opened before it.** -/
theorem matching_of_takeAll? (h : takeAll? depth us = some k) (hvs : vs <+: us) :
    closed vs ≤ depth + opened vs := by
  obtain ⟨ws, rfl⟩ := hvs
  rw [takeAll?_append] at h
  obtain ⟨j, hj, -⟩ := Option.bind_eq_some_iff.mp h
  have hclosed := closed_of_takeAll? hj
  omega

end Taking

/-! ## Tokens that are passed -/

/-- The next token, if there is one, is the end of input. -/
def AtEnd (ts : List Token) : Prop := ∀ t ∈ ts.head?, t.kind = .endOfInput

theorem atEnd_nil : AtEnd [] := by simp [AtEnd]

theorem atEnd_cons {t : Token} (ht : t.kind = .endOfInput) (ts : List Token) :
    AtEnd (t :: ts) := by
  simpa [AtEnd] using ht

/-- **The tokens before `rest` are passed**, with `depth` open braces before them. Behind them all
braces are closed, unless it may be `cut` short by the end of input. -/
def Passes (depth : Nat) (cut : Prop) (ts rest : List Token) : Prop :=
  ∃ us k, ts = us ++ rest ∧ takeAll? depth us = some k ∧ (k = 0 ∨ cut ∧ AtEnd rest)

section Passing

variable {depth d : Nat} {cut cut' : Prop} {t : Token} {ts mid rest : List Token}

theorem Passes.refl (ts : List Token) : Passes 0 cut ts ts := ⟨[], 0, rfl, rfl, .inl rfl⟩

theorem Passes.mono (h : Passes depth cut ts rest) (hcut : cut → cut') :
    Passes depth cut' ts rest := by
  obtain ⟨us, k, hts, hus, hk⟩ := h
  exact ⟨us, k, hts, hus, hk.imp id fun hend => ⟨hcut hend.1, hend.2⟩⟩

theorem Passes.append {us : List Token} (hus : takeAll? depth us = some d)
    (h : Passes d cut ts rest) : Passes depth cut (us ++ ts) rest := by
  obtain ⟨vs, k, rfl, hvs, hk⟩ := h
  refine ⟨us ++ vs, k, (List.append_assoc ..).symm, ?_, hk⟩
  rw [takeAll?_append, hus]
  exact hvs

theorem Passes.cons (ht : take? depth t.kind = some d) (h : Passes d cut ts rest) :
    Passes depth cut (t :: ts) rest := by
  have ht : takeAll? depth [t] = some d := by rw [takeAll?_cons, ht]; rfl
  exact h.append ht

theorem Passes.of_atEnd (depth : Nat) (hcut : cut) (hend : AtEnd ts) : Passes depth cut ts ts :=
  ⟨[], depth, rfl, rfl, .inr ⟨hcut, hend⟩⟩

theorem Passes.eq_of_atEnd (h : Passes depth cut ts rest) (hend : AtEnd ts) : rest = ts := by
  obtain ⟨us, k, rfl, hus, -⟩ := h
  cases us with
  | nil => rfl
  | cons t us => exact absurd (hend t rfl) (noEnd_of_takeAll? hus t List.mem_cons_self)

theorem Passes.trans (h : Passes depth cut ts mid) (h' : Passes 0 cut mid rest) :
    Passes depth cut ts rest := by
  obtain ⟨us, k, rfl, hus, rfl | ⟨hcut, hend⟩⟩ := h
  · exact h'.append hus
  · rw [h'.eq_of_atEnd hend]
    exact ⟨us, k, rfl, hus, .inr ⟨hcut, hend⟩⟩

/-- **What is dropped after an error** closes the braces it opens, unless the end is met. -/
theorem passes_synchronize (depth : Nat) (ts : List Token) :
    Passes depth True ts (synchronize depth ts) := by
  fun_induction synchronize depth ts with
  | case1 depth => exact Passes.of_atEnd depth trivial atEnd_nil
  | case2 depth t ts hstop =>
    obtain hend | ⟨-, rfl⟩ := hstop
    · exact Passes.of_atEnd depth trivial (atEnd_cons hend ts)
    · exact Passes.refl _
  | case3 depth t ts hstop _ hdone =>
    refine Passes.cons ?_ (Passes.refl ts)
    rw [take?, if_neg hstop]
    exact congrArg some hdone.1
  | case4 depth t ts hstop _ _ ih =>
    refine Passes.cons ?_ ih
    rw [take?, if_neg hstop]

end Passing

/-! ## Parsers -/

/-- **A parser keeps braces aligned**, given tokens behind `depth` open braces: it closes them and
those it opens, unless it fails at the end of input. -/
def Aligned {α : Type} (depth : Nat) (p : Parser α) : Prop :=
  ∀ ts, Passes depth ((p.run ts).result.isOk = false) ts (p.run ts).rest

section Aligned

variable {α β : Type} {depth : Nat}

theorem Passes.andThen {ts : List Token} {r : Reply α} {f : α → Parser β}
    (h : Passes depth (r.result.isOk = false) ts r.rest)
    (hf : ∀ a, Passes 0 (((f a).run r.rest).result.isOk = false) r.rest ((f a).run r.rest).rest) :
    Passes depth ((r.andThen f).result.isOk = false) ts (r.andThen f).rest := by
  unfold Reply.andThen
  split <;> rename_i hresult
  · exact h.mono fun _ => rfl
  · refine (h.mono fun hfailed => ?_).trans (hf _)
    rw [hresult] at hfailed
    cases hfailed

theorem Aligned.bind {p : Parser α} {f : α → Parser β} (hp : Aligned depth p)
    (hf : ∀ a, Aligned 0 (f a)) : Aligned depth (p >>= f) :=
  fun ts => (hp ts).andThen fun a => hf a _

theorem aligned_succeed (a : α) : Aligned 0 (succeed a) := fun ts => Passes.refl ts

theorem aligned_pure (a : α) : Aligned 0 (pure a : Parser α) := aligned_succeed a

theorem Aligned.map {p : Parser α} (hp : Aligned depth p) (f : α → β) :
    Aligned depth (p >>= fun a => pure (f a)) :=
  hp.bind fun _ => aligned_pure _

theorem aligned_fail (e : ParseError) : Aligned 0 (fail e : Parser α) := fun ts => Passes.refl ts

theorem aligned_unexpected (expected : Expectation) :
    Aligned 0 (unexpected expected : Parser α) :=
  fun ts => Passes.refl ts

theorem aligned_nextLine : Aligned 0 nextLine := fun ts => Passes.refl ts

theorem Aligned.headed {choice : Token → Option (Parser α)} {otherwise : Parser α}
    (hchoice : ∀ t p, choice t = some p → ∃ d, take? depth t.kind = some d ∧ Aligned d p)
    (hotherwise : Aligned depth otherwise) : Aligned depth (headed choice otherwise) := by
  intro ts
  cases ts with
  | nil => exact hotherwise []
  | cons t ts =>
    cases hp : choice t with
    | none =>
      have hrun : (Parser.headed choice otherwise).run (t :: ts) = otherwise.run (t :: ts) := by
        simp only [Parser.headed, hp]
      rw [hrun]
      exact hotherwise _
    | some p =>
      have hrun : (Parser.headed choice otherwise).run (t :: ts) = p.run ts := by
        simp only [Parser.headed, hp]
      obtain ⟨d, ht, haligned⟩ := hchoice t p hp
      rw [hrun]
      exact Passes.cons ht (haligned ts)

theorem aligned_expect {kind : TokenKind} (expected : Expectation)
    (hkind : take? 0 kind = some 0) : Aligned 0 (expect kind expected) := by
  refine Aligned.headed (fun t p hp => ?_) (aligned_unexpected expected)
  split_ifs at hp with ht
  cases hp
  exact ⟨0, ht ▸ hkind, aligned_succeed t⟩

theorem aligned_name (expected : Expectation) : Aligned 0 (name expected) :=
  (aligned_expect expected rfl).map _

theorem aligned_enter {ι : Type} {inner : Option ι} (line : Nat) {p : ι → Parser α}
    (h : ∀ i ∈ inner, Aligned 0 (p i)) : Aligned 0 (enter inner line p) := by
  cases inner with
  | none => exact aligned_fail _
  | some i => exact h i rfl

theorem aligned_extend {more : α → Token → Option (Parser α)}
    (hmore : ∀ a t p, more a t = some p → take? 0 t.kind = some 0 ∧ Aligned 0 p) (a : α) :
    Aligned 0 (extend more a) := by
  intro ts
  -- what is left gets shorter with every turn
  induction hn : ts.length using Nat.strongRecOn generalizing a ts with
  | ind n ih =>
    cases ts with
    | nil =>
      have hrun : (extend more a).run [] = ⟨.ok a, [], []⟩ := by
        change extendRun more a [] = _
        rw [extendRun]
      rw [hrun]
      exact Passes.refl []
    | cons t ts =>
      cases hp : more a t with
      | none =>
        have hrun : (extend more a).run (t :: ts) = ⟨.ok a, [], t :: ts⟩ := by
          change extendRun more a (t :: ts) = _
          rw [extendRun, hp]
        rw [hrun]
        exact Passes.refl _
      | some p =>
        obtain ⟨ht, haligned⟩ := hmore a t p hp
        rw [run_extend hp]
        have hshorter : (p.run ts).rest.length < n := by
          rw [← hn, List.length_cons]
          exact Nat.lt_succ_of_le (p.suffix ts).length_le
        exact Passes.cons ht ((haligned ts).andThen fun b => ih _ hshorter b _ rfl)

theorem aligned_commaList {item : Parser α} (h : Aligned 0 item) :
    Aligned 0 (commaList item) := by
  refine Aligned.headed (fun t p hp => ?_) (h.bind fun first => ?_)
  · split_ifs at hp with ht
    cases hp
    exact ⟨0, by rw [ht]; rfl, aligned_succeed _⟩
  · refine (aligned_extend (fun items t p hp => ?_) [first]).bind fun items => ?_
    · split_ifs at hp with ht
      cases hp
      exact ⟨by rw [ht]; rfl, h.map _⟩
    · exact (aligned_expect _ rfl).map _

end Aligned

/-! ## Expressions -/

section Expressions

theorem aligned_leftAssoc {operand : Parser Expr} {join? : Token → Option (Expr → Expr → Expr)}
    (h : Aligned 0 operand)
    (hjoin : ∀ t join, join? t = some join → take? 0 t.kind = some 0) :
    Aligned 0 (leftAssoc operand join?) := by
  refine h.bind fun first => aligned_extend (fun left t p hp => ?_) first
  obtain ⟨join, hjoined, rfl⟩ := Option.map_eq_some_iff.mp hp
  exact ⟨hjoin t join hjoined, h.map _⟩

theorem take?_of_joinBinary {ops : List BinaryOp} {t : Token} {join : Expr → Expr → Expr}
    (h : joinBinary ops t = some join) : take? 0 t.kind = some 0 :=
  take?_of_plain (plain_of_joinBinary h) (kind_of_joinBinary h)

theorem take?_of_joinLogical {kind : TokenKind} {op : LogicalOp} {t : Token}
    {join : Expr → Expr → Expr} (hkind : take? 0 kind = some 0)
    (h : joinLogical kind op t = some join) : take? 0 t.kind = some 0 := by
  unfold joinLogical at h
  split_ifs at h with ht
  exact ht ▸ hkind

/-- The parsers one level further in keep braces aligned. -/
def ExprParsers.Aligned (i : ExprParsers) : Prop :=
  Grammar.Aligned 0 i.unary ∧ Grammar.Aligned 0 i.assignment

section Levels

variable {inner : Option ExprParsers} (h : ∀ i ∈ inner, i.Aligned)
include h

theorem aligned_wholeExpression : Aligned 0 (wholeExpression inner) :=
  aligned_nextLine.bind fun line => aligned_enter line fun i hi => (h i hi).2

theorem aligned_primary : Aligned 0 (primary inner) := by
  refine Aligned.headed (fun t p hp => ⟨0, ?_⟩) (aligned_unexpected _)
  split at hp <;> rename_i ht
  case h_8 =>
    cases hp
    refine ⟨by rw [ht]; rfl, ?_⟩
    exact (aligned_wholeExpression h).bind fun e => (aligned_expect _ rfl).map _
  case h_9 => cases hp
  all_goals
    cases hp
    exact ⟨by rw [ht]; rfl, aligned_succeed _⟩

theorem aligned_call : Aligned 0 (call inner) := by
  refine (aligned_primary h).bind fun e => aligned_extend (fun e t p hp => ?_) e
  unfold callSuffix at hp
  split at hp <;> rename_i ht <;> cases hp <;> refine ⟨by rw [ht]; rfl, ?_⟩
  · refine (aligned_commaList (aligned_wholeExpression h)).bind fun arguments => ?_
    split_ifs
    · exact aligned_fail _
    · exact aligned_pure _
  · exact (aligned_name _).map _

theorem aligned_unary : Aligned 0 (unary inner) := by
  refine Aligned.headed (fun t p hp => ?_) (aligned_call h)
  obtain ⟨op, hop, rfl⟩ := Option.map_eq_some_iff.mp hp
  refine ⟨0, ?_, (aligned_enter _ fun i hi => (h i hi).1).map _⟩
  unfold unaryOp? at hop
  split at hop <;> rename_i ht
  · rw [ht]; rfl
  · rw [ht]; rfl
  · cases hop

theorem aligned_logicalOr : Aligned 0 (logicalOr inner) := by
  have hbinary : ∀ {operand : Parser Expr} {ops : List BinaryOp}, Aligned 0 operand →
      Aligned 0 (leftAssoc operand (joinBinary ops)) :=
    fun hoperand => aligned_leftAssoc hoperand fun _ _ => take?_of_joinBinary
  have hequality : Aligned 0 (equality inner) :=
    hbinary (hbinary (hbinary (hbinary (aligned_unary h))))
  have hand : Aligned 0 (logicalAnd inner) :=
    aligned_leftAssoc hequality fun _ _ => take?_of_joinLogical rfl
  exact aligned_leftAssoc hand fun _ _ => take?_of_joinLogical rfl

theorem aligned_assignment : Aligned 0 (assignment inner) := by
  refine (aligned_logicalOr h).bind fun target => ?_
  refine Aligned.headed (fun t p hp => ?_) (aligned_succeed target)
  split_ifs at hp with ht
  cases hp
  refine ⟨0, by rw [ht]; rfl, (aligned_enter _ fun i hi => (h i hi).2).bind fun value => ?_⟩
  unfold assignTo
  split
  · exact aligned_succeed _
  · exact aligned_succeed _
  · exact aligned_fail _

end Levels

theorem aligned_exprLevel (room : Nat) : ∀ i ∈ exprLevel room, i.Aligned := by
  induction room with
  | zero => exact nofun
  | succ room ih =>
    rintro i ⟨⟩
    exact ⟨aligned_unary ih, aligned_assignment ih⟩

theorem aligned_expression (room : Nat) : Aligned 0 (expression room) :=
  aligned_wholeExpression (aligned_exprLevel room)

end Expressions

/-! ## Lists of statements -/

/-- **One turn of the loop over the statements of a block**: an attempt at a statement. -/
inductive Attempt (p : Consuming Stmt) : List Token → List Token → Prop
  | intro {t : Token} (ts : List Token) (ht : endsStatements t = false) :
      Attempt p (t :: ts) (recovering p.toParser (t :: ts)).rest

section Lists

variable {p : Consuming Stmt}

/-- **An attempt at a statement keeps braces aligned**, whether it succeeds or not. -/
theorem passes_recovering {p : Parser Stmt} (hp : Aligned 0 p) (ts : List Token) :
    Passes 0 True ts (recovering p ts).rest := by
  have hrun : Passes 0 True ts (p.run ts).rest := (hp ts).mono fun _ => trivial
  unfold recovering
  dsimp only
  split
  · exact hrun
  · exact hrun.trans (passes_synchronize 0 _)

theorem Attempt.length_lt {ts us : List Token} (h : Attempt p ts us) :
    us.length < ts.length := by
  cases h with
  | intro ts ht => exact recovering_length_lt p ts ht

theorem Attempt.passes (hp : Aligned 0 p.toParser) {ts us : List Token} (h : Attempt p ts us) :
    Passes 0 True ts us := by
  cases h with
  | intro ts ht => exact passes_recovering hp _

/-- **The loop over the statements of a block ends** at a closing brace or at the end of input. -/
theorem statements_attempts (p : Consuming Stmt) (ts : List Token) :
    ReflTransGen (Attempt p) ts (statements p ts).rest ∧
      ∀ t ∈ (statements p ts).rest.head?, endsStatements t := by
  fun_induction statements p ts with
  | case1 => exact ⟨.refl, by simp⟩
  | case2 t ts hends => exact ⟨.refl, by simpa using hends⟩
  | case3 t ts hends =>
    rename_i ih
    exact ⟨.head (.intro ts (by simpa using hends)) ih.1, ih.2⟩

theorem passes_of_attempts (hp : Aligned 0 p.toParser) {ts us : List Token}
    (h : ReflTransGen (Attempt p) ts us) : Passes 0 True ts us := by
  induction h with
  | refl => exact Passes.refl ts
  | tail _ hlast ih => exact ih.trans (hlast.passes hp)

theorem passes_closingBrace {k : Nat} {ts : List Token} (hk : k = 0 ∨ AtEnd ts)
    (hends : ∀ t ∈ ts.head?, endsStatements t) :
    Passes (k + 1) (((expect .rightBrace .blockEnd).run ts).result.isOk = false) ts
      ((expect .rightBrace .blockEnd).run ts).rest := by
  cases ts with
  | nil => exact Passes.of_atEnd _ rfl atEnd_nil
  | cons t ts =>
    by_cases ht : t.kind = .rightBrace
    · have hrun : (expect .rightBrace .blockEnd).run (t :: ts) = ⟨.ok t, [], ts⟩ := by
        simp only [expect, headed, if_pos ht, succeed]
      have hk : k = 0 := hk.resolve_right fun hend => by simpa [ht] using hend t rfl
      rw [hrun, hk]
      exact Passes.cons (by rw [ht]; rfl) (Passes.refl ts)
    · have hrun : (expect .rightBrace .blockEnd).run (t :: ts) =
          ⟨.error (unexpectedAt .blockEnd (t :: ts)), [], t :: ts⟩ := by
        simp only [expect, headed, if_neg ht, unexpected]
      have hend : t.kind = .endOfInput := by simpa [endsStatements, ht] using hends t rfl
      rw [hrun]
      exact Passes.of_atEnd _ rfl (atEnd_cons hend ts)

/-- **The body of a block closes the brace that opened it**, or fails at the end of input. -/
theorem aligned_blockBody (hp : Aligned 0 p.toParser) : Aligned 1 (blockBody p) := by
  intro ts
  obtain ⟨hturns, hends⟩ := statements_attempts p ts
  obtain ⟨us, k, hts, hus, hk⟩ := passes_of_attempts hp hturns
  have hclosing := passes_closingBrace (hk.imp id (·.2)) hends
  have hbody := hclosing.andThen fun _ => aligned_succeed (statements p ts).statements _
  have hblock := hbody.append (takeAll?_add hus 1)
  rwa [← hts] at hblock

end Lists

/-! ## Statements -/

/-- The parsers one level further in. -/
structure StmtParsers.Aligned (i : StmtParsers) : Prop where
  expression : Grammar.Aligned 0 i.expression
  statement : Grammar.Aligned 0 i.statement.toParser
  declaration : Grammar.Aligned 0 i.declaration.toParser

section Forms

variable {inner : StmtParsers} (h : inner.Aligned) (line : Nat)
include h

theorem aligned_conditional : Aligned 0 (conditional inner line) := by
  refine h.expression.bind fun condition => h.statement.bind fun yes => ?_
  refine Aligned.headed (fun t p hp => ?_) (aligned_succeed _)
  split_ifs at hp with ht
  cases hp
  exact ⟨0, by rw [ht]; rfl, h.statement.map _⟩

theorem aligned_whileLoop : Aligned 0 (whileLoop inner line) :=
  h.expression.bind fun _ => h.statement.map _

theorem aligned_forLoop : Aligned 0 (forLoop inner line) :=
  (aligned_name _).bind fun _ => (aligned_expect _ rfl).bind fun _ =>
    h.expression.bind fun _ => h.statement.map _

theorem aligned_giveBack : Aligned 0 (giveBack inner line) := by
  refine Aligned.headed (fun t p hp => ?_) ?_
  · split_ifs at hp with ht
    cases hp
    exact ⟨0, by rw [ht]; rfl, aligned_succeed _⟩
  · exact h.expression.bind fun _ => (aligned_expect _ rfl).map _

theorem aligned_expressionStatement : Aligned 0 (expressionStatement inner line) :=
  h.expression.bind fun _ => (aligned_expect _ rfl).map _

end Forms

theorem aligned_statementWith {inner : Option StmtParsers} (h : ∀ i ∈ inner, i.Aligned) :
    Aligned 0 (statementWith inner).toParser := by
  intro ts
  cases ts with
  | nil => exact Passes.refl []
  | cons t ts =>
    have henter : Aligned 0 (enter inner t.line fun i =>
        headed (keywordStatement? i) (expressionStatement i t.line)) := by
      refine aligned_enter _ fun i hi => ?_
      refine Aligned.headed (fun t' p hp => ?_) (aligned_expressionStatement (h i hi) _)
      unfold keywordStatement? at hp
      split at hp <;> rename_i ht' <;> cases hp <;> refine ⟨_, by rw [ht']; rfl, ?_⟩
      · exact (aligned_blockBody (h i hi).declaration).map _
      · exact aligned_conditional (h i hi) _
      · exact aligned_whileLoop (h i hi) _
      · exact aligned_forLoop (h i hi) _
      · exact aligned_giveBack (h i hi) _
    exact henter (t :: ts)

theorem aligned_function {inner : Option StmtParsers} (h : ∀ i ∈ inner, i.Aligned) (line : Nat) :
    Aligned 0 (function inner line) := by
  refine (aligned_name _).bind fun functionName => ?_
  refine (aligned_expect _ rfl).bind fun _ => ?_
  refine (aligned_commaList (aligned_name _)).bind fun params => ?_
  split_ifs
  · exact aligned_fail _
  refine aligned_enter line fun i hi => Aligned.map ?_ _
  refine Aligned.headed (fun t p hp => ?_) ((h i hi).statement.map _)
  split_ifs at hp with ht
  cases hp
  exact ⟨1, by rw [ht]; rfl, aligned_blockBody (h i hi).declaration⟩

theorem aligned_variableDeclaration {expression : Parser Expr} (h : Aligned 0 expression)
    (line : Nat) : Aligned 0 (variableDeclaration expression line) := by
  refine (aligned_name _).bind fun variableName => ?_
  refine Aligned.bind ?_ fun initial => (aligned_expect _ rfl).map _
  refine Aligned.headed (fun t p hp => ?_) (aligned_succeed none)
  split_ifs at hp with ht
  cases hp
  exact ⟨0, by rw [ht]; rfl, h.map _⟩

theorem aligned_declarationWith {expression : Parser Expr} {inner : Option StmtParsers}
    (hexpression : Aligned 0 expression) (h : ∀ i ∈ inner, i.Aligned) :
    Aligned 0 (declarationWith expression inner).toParser := by
  refine Aligned.headed (fun t p hp => ?_) (aligned_statementWith h)
  split at hp <;> rename_i ht <;> cases hp <;> refine ⟨0, by rw [ht]; rfl, ?_⟩
  · exact aligned_function h t.line
  · exact aligned_variableDeclaration hexpression t.line

theorem aligned_stmtLevel (room : Nat) : ∀ i ∈ stmtLevel room, i.Aligned := by
  induction room with
  | zero => exact nofun
  | succ room ih =>
    rintro i ⟨⟩
    exact ⟨aligned_expression room, aligned_statementWith ih,
      aligned_declarationWith (aligned_expression room) ih⟩

theorem aligned_declaration (room : Nat) : Aligned 0 (declaration room).toParser :=
  aligned_declarationWith (aligned_expression room) (aligned_stmtLevel room)

/-! ## Programs -/

/-- **One turn of the loop over a program**: an attempt at a statement, or a closing brace that
nothing opened. -/
inductive Turn (p : Consuming Stmt) : List Token → List Token → Prop
  | attempt {ts us : List Token} (h : Attempt p ts us) : Turn p ts us
  | brace {t : Token} (ts : List Token) (ht : t.kind = .rightBrace) : Turn p (t :: ts) ts

/-- **Every turn takes a token.** -/
theorem Turn.length_lt {p : Consuming Stmt} {ts us : List Token} (h : Turn p ts us) :
    us.length < ts.length := by
  cases h with
  | attempt h => exact h.length_lt
  | brace ts ht => exact Nat.lt_succ_self _

/-- **The loop over a program ends** at the end of input. -/
theorem program_turns (p : Consuming Stmt) (ts : List Token) :
    ReflTransGen (Turn p) ts (program p ts).rest ∧ AtEnd (program p ts).rest := by
  induction hn : ts.length using Nat.strongRecOn generalizing ts with
  | ind n ih =>
    obtain ⟨hattempts, hends⟩ := statements_attempts p ts
    have hturns : ReflTransGen (Turn p) ts (statements p ts).rest :=
      hattempts.lift id fun _ _ => .attempt
    by_cases hbrace : ∀ t ∈ (statements p ts).rest.head?, t.kind ≠ .rightBrace
    · rw [program_of_end hbrace]
      refine ⟨hturns, fun t ht => ?_⟩
      simpa [endsStatements, hbrace t ht] using hends t ht
    · push Not at hbrace
      obtain ⟨t, ht, hkind⟩ := hbrace
      obtain ⟨rest, hrest⟩ := List.head?_eq_some_iff.mp ht
      have hshorter := (statements_suffix p ts).length_le
      rw [hrest] at hturns hshorter
      obtain ⟨hmore, hend⟩ := ih rest.length (hn ▸ hshorter) rest rfl
      rw [program_of_brace hrest hkind]
      exact ⟨(hturns.tail (.brace rest hkind)).trans hmore, hend⟩

/-- **Reading ends and keeps braces aligned**, whatever the tokens are. An attempt at a statement
takes at least one token unless it starts at a closing brace or at the end of input. It never takes
the end of input or a closing brace that it did not open, and unless the end is met it closes all
braces that it opened. Every turn of the loops over a block and over a program takes a token, and
the loops go on up to the end of the block and up to the end of input. -/
theorem reading_ends_aligned (room : Nat) (ts : List Token) :
    (∀ t us, ts = t :: us → t.kind ≠ .rightBrace → t.kind ≠ .endOfInput →
        (recovering (declaration room).toParser ts).rest.length < ts.length) ∧
      (∃ taken, ts = taken ++ (recovering (declaration room).toParser ts).rest ∧
        (∀ t ∈ taken, t.kind ≠ .endOfInput) ∧ (∀ us, us <+: taken → closed us ≤ opened us) ∧
        (¬ AtEnd (recovering (declaration room).toParser ts).rest →
          closed taken = opened taken)) ∧
      (∀ us vs, Turn (declaration room) us vs → vs.length < us.length) ∧
      (ReflTransGen (Attempt (declaration room)) ts (statements (declaration room) ts).rest ∧
        ∀ t ∈ (statements (declaration room) ts).rest.head?, endsStatements t) ∧
      ReflTransGen (Turn (declaration room)) ts (program (declaration room) ts).rest ∧
        AtEnd (program (declaration room) ts).rest := by
  refine ⟨?_, ?_, fun us vs h => h.length_lt, statements_attempts _ ts, program_turns _ ts⟩
  · rintro t us rfl hright hend
    exact recovering_length_lt _ us (by simp [endsStatements, hright, hend])
  · obtain ⟨taken, k, hts, htaken, hk⟩ := passes_recovering (aligned_declaration room) ts
    refine ⟨taken, hts, noEnd_of_takeAll? htaken, fun us hus => ?_, fun hmore => ?_⟩
    · have hmatching := matching_of_takeAll? htaken hus
      omega
    · have hk : k = 0 := hk.resolve_right fun hend => hmore hend.2
      have hclosed := closed_of_takeAll? htaken
      omega

/-- A function without a name, before a brace that nothing opened: what is dropped has whole pairs
of braces and stops before that brace. -/
theorem reading_ends_aligned_nameless :
    let ts : List Token := [⟨.kwFun, "fun", none, 1⟩, ⟨.leftBrace, "\x7b", none, 1⟩,
      ⟨.rightBrace, "\x7d", none, 1⟩, ⟨.rightBrace, "\x7d", none, 1⟩]
    (recovering (declaration maxNesting).toParser ts).rest.length < ts.length ∧
      ∃ taken, ts = taken ++ (recovering (declaration maxNesting).toParser ts).rest ∧
        ∀ us, us <+: taken → closed us ≤ opened us := by
  intro ts
  obtain ⟨hprogress, ⟨taken, hts, -, hmatching, -⟩, -⟩ := reading_ends_aligned maxNesting ts
  exact ⟨hprogress _ _ rfl (by decide) (by decide), taken, hts, hmatching⟩

end Grammar

end Scriptlet
