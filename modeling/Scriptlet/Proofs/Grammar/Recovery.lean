import Mathlib.Data.List.Infix
import Scriptlet.Proofs.Grammar.Statements

/-!
# Recovery from errors is local

Tokens that close all braces they open and end with a semicolon outside of them are sealed: whatever
errors they hold, a parser that starts in them never looks behind them, except for an `else` behind
the last statement. The braces that are taken by a parser and those that are dropped after an error
always match.

* `Sealed`: the tokens from some place inside a statement up to the last semicolon.
* `Local`: **a parser does not look behind sealed tokens**, and where it stops in them.
* `Inline`, `Bounded`: parsers that stop inside a statement, and parsers of whole statements.
* `synchronize_append`: the tokens that are dropped after an error are sealed tokens.
* `program_append`: **the errors of sealed tokens do not spread** to what comes behind them.
-/

namespace Scriptlet

namespace Grammar

open Scriptlet.Parser

theorem noElse_nil : NoElse [] := by simp [NoElse]

/-! ## Sealed tokens -/

/-- A token that is neither a brace nor a semicolon. -/
def Plain (t : Token) : Prop :=
  t.kind ≠ .leftBrace ∧ t.kind ≠ .rightBrace ∧ t.kind ≠ .semicolon

/-- **Sealed tokens**: they close no more than the given number of open braces, and end with a
semicolon outside all braces. Unless there may be `many` statements, no brace or semicolon comes
before the end, and no keyword that starts a statement comes behind the first token. -/
def Sealed (many : Prop) (depth : Nat) : List Token → Prop
  | [] => False
  | t :: ts =>
    t.kind ≠ .endOfInput ∧ (t.kind = .rightBrace → 0 < depth) ∧
      (ts = [] ∧ depth = 0 ∧ t.kind = .semicolon ∨
        Sealed many (braceDepth depth t.kind) ts ∧
          (many ∨ Plain t ∧ ¬ ts.head?.any (·.kind.startsStatement)))

/-- The place behind a statement: the end, or the start of another statement. -/
def Ended (many : Prop) (depth : Nat) (ts : List Token) : Prop :=
  depth = 0 ∧ ts = [] ∨ many ∧ Sealed many depth ts

section Sealed

variable {many : Prop} {depth : Nat} {t : Token} {ts : List Token}

theorem braceDepth_of_plain (h : Plain t) (depth : Nat) : braceDepth depth t.kind = depth := by
  obtain ⟨hleft, hright, -⟩ := h
  cases hk : t.kind <;> simp_all [braceDepth]

theorem Sealed.plain (h : Sealed many depth (t :: ts)) (ht : Plain t) : Sealed many depth ts := by
  obtain ⟨-, -, ⟨-, -, hsemicolon⟩ | ⟨hrest, -⟩⟩ := h
  · exact absurd hsemicolon ht.2.2
  · rwa [braceDepth_of_plain ht] at hrest

theorem Sealed.semicolon (h : Sealed many depth (t :: ts)) (ht : t.kind = .semicolon) :
    Ended many depth ts := by
  obtain ⟨-, -, ⟨hts, hdepth, -⟩ | ⟨hrest, hmany⟩⟩ := h
  · exact .inl ⟨hdepth, hts⟩
  · rw [ht] at hrest
    exact .inr ⟨hmany.resolve_right fun hplain => hplain.1.2.2 ht, hrest⟩

theorem Sealed.opens (h : Sealed many depth (t :: ts)) (ht : t.kind = .leftBrace) :
    many ∧ Sealed many (depth + 1) ts := by
  obtain ⟨-, -, ⟨-, -, hsemicolon⟩ | ⟨hrest, hmany⟩⟩ := h
  · rw [ht] at hsemicolon
    cases hsemicolon
  · rw [ht] at hrest
    exact ⟨hmany.resolve_right fun hplain => hplain.1.1 ht, hrest⟩

theorem Sealed.closes (h : Sealed many depth (t :: ts)) (ht : t.kind = .rightBrace) :
    many ∧ 0 < depth ∧ Sealed many (depth - 1) ts := by
  obtain ⟨-, hdepth, ⟨-, -, hsemicolon⟩ | ⟨hrest, hmany⟩⟩ := h
  · rw [ht] at hsemicolon
    cases hsemicolon
  · rw [ht] at hrest
    exact ⟨hmany.resolve_right fun hplain => hplain.1.2.1 ht, hdepth ht, hrest⟩

theorem Ended.succ (h : Ended many (depth + 1) ts) : Sealed many (depth + 1) ts := by
  obtain ⟨hdepth, -⟩ | ⟨-, h⟩ := h
  · exact absurd hdepth (Nat.succ_ne_zero _)
  · exact h

end Sealed

/-! ## Parsers that do not look behind -/

/-- Where a parser stops: a place of the one kind after success, of the other after failure. -/
def StopsAt {α : Type} (after before : List Token → Prop) (vs : List Token) :
    Except ParseError α → Prop
  | .ok _ => after vs
  | .error _ => before vs

/-- **A parser does not look behind the tokens `us`**: with or without success, it does the same
whatever comes behind them. It stops at a place in them that satisfies `after` if it succeeds and
`before` if it fails, and it recovers from no error unless there may be `many` statements. -/
inductive Local {α : Type} (many : Prop) (after before : List Token → Prop) (p : Parser α)
    (us : List Token) : Prop
  | intro (result : Except ParseError α) (es : List ParseError) (vs : List Token)
      (run : ∀ ts, NoElse ts → p.run (us ++ ts) = ⟨result, es, vs ++ ts⟩)
      (recovered : many ∨ es = []) (stops : StopsAt after before vs result)

section Local

variable {α β : Type} {many : Prop} {after after' before : List Token → Prop} {us : List Token}
  {t : Token}

theorem Local.bind {p : Parser α} {f : α → Parser β} (h : Local many after before p us)
    (hf : ∀ a vs, after vs → Local many after' before (f a) vs) :
    Local many after' before (p >>= f) us := by
  obtain ⟨result, es, vs, run, recovered, stops⟩ := h
  have hrun (ts : List Token) (hts : NoElse ts) :
      (p >>= f).run (us ++ ts) = Reply.andThen ⟨result, es, vs ++ ts⟩ f :=
    congrArg (Reply.andThen · f) (run ts hts)
  cases result with
  | error e => exact .intro (.error e) es vs hrun recovered stops
  | ok a =>
    obtain ⟨result', es', vs', run', recovered', stops'⟩ := hf a vs stops
    refine .intro result' (es ++ es') vs' (fun ts hts => (hrun ts hts).trans ?_) ?_ stops'
    · simp only [Reply.andThen, run' ts hts, Reply.after]
    · exact or_iff_not_imp_left.mpr fun hmany => by
        rw [recovered.resolve_left hmany, recovered'.resolve_left hmany, List.append_nil]

theorem local_succeed (a : α) (h : after us) : Local many after before (succeed a) us :=
  .intro (.ok a) [] us (fun _ _ => rfl) (.inr rfl) h

theorem local_fail (e : ParseError) (h : before us) :
    Local many after before (fail e : Parser α) us :=
  .intro (.error e) [] us (fun _ _ => rfl) (.inr rfl) h

theorem local_unexpected (expected : Expectation) (h : before (t :: us)) :
    Local many after before (unexpected expected : Parser α) (t :: us) :=
  .intro (.error (unexpectedAt expected (t :: us))) [] (t :: us) (fun _ _ => rfl) (.inr rfl) h

theorem local_nextLine (h : after (t :: us)) : Local many after before nextLine (t :: us) :=
  .intro (.ok t.line) [] (t :: us) (fun _ _ => rfl) (.inr rfl) h

theorem Local.of_run_eq {p q : Parser α} {vs : List Token} (h : Local many after before q vs)
    (hrun : ∀ ts, NoElse ts → p.run (us ++ ts) = q.run (vs ++ ts)) :
    Local many after before p us := by
  obtain ⟨result, es, ws, run, recovered, stops⟩ := h
  exact .intro result es ws (fun ts hts => (hrun ts hts).trans (run ts hts)) recovered stops

theorem local_headed {choice : Token → Option (Parser α)} {otherwise : Parser α}
    (hsome : ∀ p, choice t = some p → Local many after before p us)
    (hnone : choice t = none → Local many after before otherwise (t :: us)) :
    Local many after before (headed choice otherwise) (t :: us) := by
  cases hchoice : choice t with
  | none =>
    refine (hnone hchoice).of_run_eq fun ts _ => ?_
    simp only [headed, List.cons_append, hchoice]
  | some p =>
    refine (hsome p hchoice).of_run_eq fun ts _ => ?_
    simp only [headed, List.cons_append, hchoice]

end Local

/-! ## Parsers inside a statement -/

/-- **A parser stays inside a statement**: it takes no brace and no semicolon. -/
def Inline {α : Type} (many : Prop) (p : Parser α) : Prop :=
  ∀ depth us, Sealed many depth us → Local many (Sealed many depth) (Sealed many depth) p us

section Inline

variable {α β : Type} {many : Prop}

theorem Inline.bind {p : Parser α} {f : α → Parser β} (hp : Inline many p)
    (hf : ∀ a, Inline many (f a)) : Inline many (p >>= f) :=
  fun depth us h => (hp depth us h).bind fun a vs hvs => hf a depth vs hvs

theorem inline_succeed (a : α) : Inline many (succeed a) := fun _ _ h => local_succeed a h

theorem inline_pure (a : α) : Inline many (pure a : Parser α) := inline_succeed a

theorem inline_fail (e : ParseError) : Inline many (fail e : Parser α) :=
  fun _ _ h => local_fail e h

theorem inline_unexpected (expected : Expectation) :
    Inline many (unexpected expected : Parser α) := by
  intro depth us h
  cases us with
  | nil => exact h.elim
  | cons t us => exact local_unexpected expected h

theorem inline_nextLine : Inline many nextLine := by
  intro depth us h
  cases us with
  | nil => exact h.elim
  | cons t us => exact local_nextLine h

theorem Inline.headed {choice : Token → Option (Parser α)} {otherwise : Parser α}
    (hplain : ∀ t p, choice t = some p → Plain t ∧ Inline many p)
    (hotherwise : Inline many otherwise) : Inline many (headed choice otherwise) := by
  intro depth us h
  cases us with
  | nil => exact h.elim
  | cons t us =>
    refine local_headed (fun p hp => ?_) fun _ => hotherwise depth _ h
    obtain ⟨ht, hinline⟩ := hplain t p hp
    exact hinline depth us (h.plain ht)

theorem inline_expect {kind : TokenKind} (expected : Expectation)
    (hkind : ∀ t : Token, t.kind = kind → Plain t) : Inline many (expect kind expected) := by
  refine Inline.headed (fun t p hp => ?_) (inline_unexpected expected)
  split_ifs at hp with ht
  cases hp
  exact ⟨hkind t ht, inline_succeed t⟩

theorem inline_name (expected : Expectation) : Inline many (name expected) :=
  (inline_expect expected fun t ht => by simp [Plain, ht]).bind fun _ => inline_pure _

theorem inline_enter {ι : Type} {inner : Option ι} (line : Nat) {p : ι → Parser α}
    (h : ∀ i ∈ inner, Inline many (p i)) : Inline many (enter inner line p) := by
  cases inner with
  | none => exact inline_fail _
  | some i => exact h i rfl

theorem inline_extend {more : α → Token → Option (Parser α)}
    (hmore : ∀ a t p, more a t = some p → Plain t ∧ Inline many p) (a : α) :
    Inline many (extend more a) := by
  intro depth us h
  -- what is left gets shorter with every turn
  induction hn : us.length using Nat.strongRecOn generalizing a us with
  | ind n ih =>
    cases us with
    | nil => exact h.elim
    | cons t us =>
      cases hchoice : more a t with
      | none =>
        refine (local_succeed a h).of_run_eq fun ts _ => ?_
        simp only [extend, List.cons_append]
        rw [extendRun, hchoice]
        rfl
      | some p =>
        obtain ⟨ht, hinline⟩ := hmore a t p hchoice
        obtain ⟨result, es, vs, run, recovered, stops⟩ := hinline depth us (h.plain ht)
        have hlength : vs.length ≤ us.length := by
          have hsuffix := p.suffix (us ++ [])
          rw [run [] noElse_nil, List.append_nil, List.append_nil] at hsuffix
          exact hsuffix.length_le
        cases result with
        | error e =>
          refine .intro (.error e) es vs (fun ts hts => ?_) recovered stops
          simp only [extend, List.cons_append]
          rw [extendRun, hchoice]
          simp only [run ts hts]
        | ok b =>
          have hrest := ih vs.length (by simp only [List.length_cons] at hn; omega) b vs stops rfl
          obtain ⟨result', es', vs', run', recovered', stops'⟩ := hrest
          refine .intro result' (es ++ es') vs' (fun ts hts => ?_) ?_ stops'
          · have hmore' := run' ts hts
            simp only [extend, List.cons_append] at hmore' ⊢
            rw [extendRun, hchoice]
            simp only [run ts hts, hmore', Reply.after]
          · exact or_iff_not_imp_left.mpr fun hmany => by
              rw [recovered.resolve_left hmany, recovered'.resolve_left hmany, List.append_nil]

theorem inline_commaList {item : Parser α} (h : Inline many item) :
    Inline many (commaList item) := by
  refine Inline.headed (fun t p hp => ?_) (h.bind fun first => ?_)
  · split_ifs at hp with ht
    cases hp
    exact ⟨by simp [Plain, ht], inline_succeed _⟩
  · refine (inline_extend (fun items t p hp => ?_) [first]).bind fun items => ?_
    · split_ifs at hp with ht
      cases hp
      exact ⟨by simp [Plain, ht], h.bind fun _ => inline_pure _⟩
    · exact (inline_expect _ fun t ht => by simp [Plain, ht]).bind fun _ => inline_pure _

/-! ### Expressions -/

theorem inline_leftAssoc {operand : Parser Expr} {join? : Token → Option (Expr → Expr → Expr)}
    (h : Inline many operand) (hjoin : ∀ t join, join? t = some join → Plain t) :
    Inline many (leftAssoc operand join?) := by
  refine h.bind fun first => inline_extend (fun left t p hp => ?_) first
  obtain ⟨join, hjoined, rfl⟩ := Option.map_eq_some_iff.mp hp
  exact ⟨hjoin t join hjoined, h.bind fun _ => inline_pure _⟩

theorem plain_of_joinBinary {ops : List BinaryOp} {t : Token} {join : Expr → Expr → Expr}
    (h : joinBinary ops t = some join) : Plain t := by
  obtain ⟨op, hop, -⟩ := Option.map_eq_some_iff.mp h
  obtain ⟨hop, -⟩ := Option.filter_eq_some_iff.mp hop
  refine ⟨?_, ?_, ?_⟩ <;> intro hk <;> rw [hk] at hop <;> cases hop

theorem plain_of_joinLogical {kind : TokenKind} {op : LogicalOp} {t : Token}
    {join : Expr → Expr → Expr} (hkind : ∀ t : Token, t.kind = kind → Plain t)
    (h : joinLogical kind op t = some join) : Plain t := by
  unfold joinLogical at h
  split_ifs at h with ht
  exact hkind t ht

/-- The parsers one level further in stay inside a statement. -/
def ExprParsers.Inline (many : Prop) (i : ExprParsers) : Prop :=
  Grammar.Inline many i.unary ∧ Grammar.Inline many i.assignment

section Levels

variable {inner : Option ExprParsers} (h : ∀ i ∈ inner, i.Inline many)
include h

theorem inline_wholeExpression : Inline many (wholeExpression inner) :=
  inline_nextLine.bind fun line => inline_enter line fun i hi => (h i hi).2

theorem inline_primary : Inline many (primary inner) := by
  refine Inline.headed (fun t p hp => ?_) (inline_unexpected _)
  have hplain : Plain t := by
    refine ⟨?_, ?_, ?_⟩ <;> intro hk <;> simp only [hk] at hp <;> cases hp
  refine ⟨hplain, ?_⟩
  split at hp
  case h_8 =>
    cases hp
    exact (inline_wholeExpression h).bind fun e =>
      (inline_expect _ fun t ht => by simp [Plain, ht]).bind fun _ => inline_pure _
  case h_9 => cases hp
  all_goals
    cases hp
    exact inline_succeed _

theorem inline_call : Inline many (call inner) := by
  refine (inline_primary h).bind fun e => inline_extend (fun e t p hp => ?_) e
  unfold callSuffix at hp
  split at hp
  · rename_i ht
    cases hp
    refine ⟨by simp [Plain, ht], ?_⟩
    refine (inline_commaList (inline_wholeExpression h)).bind fun arguments => ?_
    split_ifs
    · exact inline_fail _
    · exact inline_pure _
  · rename_i ht
    cases hp
    exact ⟨by simp [Plain, ht], (inline_name _).bind fun _ => inline_pure _⟩
  · cases hp

theorem inline_unary : Inline many (unary inner) := by
  refine Inline.headed (fun t p hp => ?_) (inline_call h)
  obtain ⟨op, hop, rfl⟩ := Option.map_eq_some_iff.mp hp
  refine ⟨?_, (inline_enter _ fun i hi => (h i hi).1).bind fun _ => inline_pure _⟩
  refine ⟨?_, ?_, ?_⟩ <;> intro hk <;> rw [hk] at hop <;> cases hop

theorem inline_logicalOr : Inline many (logicalOr inner) := by
  have hbinary : ∀ {operand : Parser Expr} {ops : List BinaryOp}, Inline many operand →
      Inline many (leftAssoc operand (joinBinary ops)) := fun hop =>
    inline_leftAssoc hop fun _ _ => plain_of_joinBinary
  have hequality : Inline many (equality inner) :=
    hbinary (hbinary (hbinary (hbinary (inline_unary h))))
  have hand : Inline many (logicalAnd inner) :=
    inline_leftAssoc hequality fun _ _ =>
      plain_of_joinLogical fun t ht => by simp [Plain, ht]
  exact inline_leftAssoc hand fun _ _ => plain_of_joinLogical fun t ht => by simp [Plain, ht]

theorem inline_assignment : Inline many (assignment inner) := by
  refine (inline_logicalOr h).bind fun target => ?_
  refine Inline.headed (fun t p hp => ?_) (inline_succeed target)
  split_ifs at hp with ht
  cases hp
  refine ⟨by simp [Plain, ht], ?_⟩
  refine (inline_enter _ fun i hi => (h i hi).2).bind fun value => ?_
  unfold assignTo
  split
  · exact inline_succeed _
  · exact inline_succeed _
  · exact inline_fail _

end Levels

theorem inline_exprLevel (room : Nat) : ∀ i ∈ exprLevel room, i.Inline many := by
  induction room with
  | zero => exact nofun
  | succ room ih =>
    rintro i ⟨⟩
    exact ⟨inline_unary ih, inline_assignment ih⟩

/-- **Expressions take no brace and no semicolon.** -/
theorem inline_expression (room : Nat) : Inline many (expression room) :=
  inline_wholeExpression (inline_exprLevel room)

end Inline

/-! ## What is dropped after an error -/

theorem synchronize_cons {k : Nat} {t : Token} {ts : List Token} (hend : t.kind ≠ .endOfInput)
    (hopen : ¬ (t.kind = .rightBrace ∧ k = 0)) :
    synchronize k (t :: ts) =
      if braceDepth k t.kind = 0 ∧ (t.kind = .semicolon ∨ ts.head?.any (·.kind.startsStatement))
      then ts else synchronize (braceDepth k t.kind) ts := by
  rw [synchronize, if_neg (not_or.mpr ⟨hend, hopen⟩)]

/-- **The tokens that are dropped after an error** are some of the sealed tokens, and behind them a
statement has ended. The braces that are opened on the way are closed on the way. -/
theorem synchronize_append {many : Prop} {depth k : Nat} {us : List Token}
    (h : Sealed many (depth + k) us) :
    ∃ vs, (∀ ts, synchronize k (us ++ ts) = vs ++ ts) ∧ Ended many depth vs := by
  induction us generalizing k with
  | nil => exact h.elim
  | cons t us ih =>
    have hend : t.kind ≠ .endOfInput := h.1
    by_cases hstop : t.kind = .rightBrace ∧ k = 0
    · refine ⟨t :: us, fun ts => ?_, .inr ⟨(h.closes hstop.1).1, by rwa [hstop.2] at h⟩⟩
      rw [List.cons_append, synchronize, if_pos (.inr hstop)]
    -- all tokens but a semicolon lead on, to the next token or to the keyword behind them
    have hon : t.kind ≠ .semicolon → Sealed many (depth + braceDepth k t.kind) us →
        (us.head?.any (·.kind.startsStatement) → many) →
        ∃ vs, (∀ ts, synchronize k (t :: us ++ ts) = vs ++ ts) ∧ Ended many depth vs := by
      intro hsemicolon hus hkeyword
      have hhead (ts : List Token) : (us ++ ts).head? = us.head? := by
        cases us with
        | nil => exact hus.elim
        | cons => rfl
      by_cases hnext : braceDepth k t.kind = 0 ∧ us.head?.any (·.kind.startsStatement)
      · refine ⟨us, fun ts => ?_, .inr ⟨hkeyword hnext.2, by rwa [hnext.1] at hus⟩⟩
        rw [List.cons_append, synchronize_cons hend hstop, hhead,
          if_pos ⟨hnext.1, .inr hnext.2⟩]
      · obtain ⟨vs, hrun, hended⟩ := ih hus
        refine ⟨vs, fun ts => ?_, hended⟩
        rw [List.cons_append, synchronize_cons hend hstop, hhead, if_neg, hrun]
        exact fun hc => hnext ⟨hc.1, hc.2.resolve_left hsemicolon⟩
    by_cases hsemicolon : t.kind = .semicolon
    · have hdepth : braceDepth k t.kind = k := by rw [hsemicolon]; rfl
      rcases Nat.eq_zero_or_pos k with rfl | hk
      · refine ⟨us, fun ts => ?_, h.semicolon hsemicolon⟩
        rw [List.cons_append, synchronize_cons hend hstop, if_pos ⟨hdepth, .inl hsemicolon⟩]
      · obtain ⟨j, rfl⟩ := Nat.exists_eq_add_of_le' hk
        obtain ⟨vs, hrun, hended⟩ := ih (k := j + 1) (h.semicolon hsemicolon).succ
        refine ⟨vs, fun ts => ?_, hended⟩
        rw [List.cons_append, synchronize_cons hend hstop, hdepth,
          if_neg fun hc => Nat.succ_ne_zero j hc.1, hrun]
    by_cases hleft : t.kind = .leftBrace
    · obtain ⟨hmany, hus⟩ := h.opens hleft
      exact hon hsemicolon (by rw [hleft]; exact hus) fun _ => hmany
    by_cases hright : t.kind = .rightBrace
    · obtain ⟨hmany, -, hus⟩ := h.closes hright
      have hk : k ≠ 0 := fun hk => hstop ⟨hright, hk⟩
      refine hon hsemicolon ?_ fun _ => hmany
      rw [hright]
      rwa [show depth + k - 1 = depth + (k - 1) by omega] at hus
    · have hplain : Plain t := ⟨hleft, hright, hsemicolon⟩
      refine hon hsemicolon (by rw [braceDepth_of_plain hplain]; exact h.plain hplain) ?_
      obtain ⟨-, -, ⟨-, -, hlast⟩ | ⟨-, hmany⟩⟩ := h
      · exact absurd hlast hsemicolon
      · exact fun hkeyword => hmany.resolve_right fun hno => hno.2 hkeyword

/-! ## Lists of statements -/

/-- **A parser reads whole statements**: it ends behind a semicolon or a closing brace, or fails
inside a statement, outside all braces that were opened on the way. -/
def Bounded {α : Type} (many : Prop) (p : Parser α) : Prop :=
  ∀ depth us, Sealed many depth us → Local many (Ended many depth) (Sealed many depth) p us

section Lists

variable {many : Prop} {depth : Nat} {us : List Token} {p : Consuming Stmt}

/-- After success and after recovery from an error, a statement has ended. -/
theorem recovering_append (hp : Bounded many p.toParser) (h : Sealed many depth us)
    (hstart : ∀ t ∈ us.head?, endsStatements t = false) :
    ∃ s? es vs, (∀ ts, NoElse ts → recovering p.toParser (us ++ ts) = ⟨s?, es, vs ++ ts⟩) ∧
      Ended many depth vs ∧ (many ∨ es.length ≤ 1) ∧ vs.length < us.length := by
  have hshorter : ∀ {s? es vs},
      (∀ ts, NoElse ts → recovering p.toParser (us ++ ts) = ⟨s?, es, vs ++ ts⟩) →
      vs.length < us.length := by
    intro s? es vs hrun
    have hrun := hrun [] noElse_nil
    rw [List.append_nil, List.append_nil] at hrun
    cases us with
    | nil => exact h.elim
    | cons t us =>
      have hlt := recovering_length_lt p us (hstart t rfl)
      rwa [hrun] at hlt
  obtain ⟨result, es, vs, run, recovered, stops⟩ := hp depth us h
  cases result with
  | ok s =>
    have hrun : ∀ ts, NoElse ts → recovering p.toParser (us ++ ts) = ⟨some s, es, vs ++ ts⟩ := by
      intro ts hts
      simp only [recovering, run ts hts]
    refine ⟨some s, es, vs, hrun, stops, recovered.imp id fun hes => ?_, hshorter hrun⟩
    rw [hes]
    exact Nat.zero_le 1
  | error e =>
    obtain ⟨ws, hsync, hended⟩ := synchronize_append (k := 0) stops
    have hrun : ∀ ts, NoElse ts →
        recovering p.toParser (us ++ ts) = ⟨none, es ++ [e], ws ++ ts⟩ := by
      intro ts hts
      simp only [recovering, run ts hts, hsync]
    refine ⟨none, es ++ [e], ws, hrun, hended, recovered.imp id fun hes => ?_, hshorter hrun⟩
    rw [hes]
    exact Nat.le_refl 1

theorem statements_cons {t : Token} {ts : List Token} (ht : endsStatements t = false) :
    statements p (t :: ts) =
      ⟨(recovering p.toParser (t :: ts)).statement?.toList ++
          (statements p (recovering p.toParser (t :: ts)).rest).statements,
        (recovering p.toParser (t :: ts)).errors ++
          (statements p (recovering p.toParser (t :: ts)).rest).errors,
        (statements p (recovering p.toParser (t :: ts)).rest).rest⟩ := by
  rw [statements, dif_neg (by simp [ht])]

/-- **Inside braces** statements are read up to the brace that closes them. -/
theorem statements_inside (hp : Bounded many p.toParser) (h : Sealed many (depth + 1) us) :
    ∃ ss es t vs, (∀ ts, NoElse ts → statements p (us ++ ts) = ⟨ss, es, t :: vs ++ ts⟩) ∧
      t.kind = .rightBrace ∧ Sealed many (depth + 1) (t :: vs) := by
  induction hn : us.length using Nat.strongRecOn generalizing us with
  | ind n ih =>
    cases us with
    | nil => exact h.elim
    | cons t us =>
      by_cases ht : t.kind = .rightBrace
      · refine ⟨[], [], t, us, fun ts _ => ?_, ht, h⟩
        rw [List.cons_append, statements, dif_pos (by simp [endsStatements, ht])]
      have hends : endsStatements t = false := by simp [endsStatements, ht, h.1]
      obtain ⟨s?, es, vs, hrun, hended, -, hlength⟩ :=
        recovering_append hp h (by rintro _ ⟨⟩; exact hends)
      obtain ⟨ss, es', t', ws, hrest, ht', hws⟩ := ih vs.length (hn ▸ hlength) hended.succ rfl
      refine ⟨s?.toList ++ ss, es ++ es', t', ws, fun ts hts => ?_, ht', hws⟩
      rw [List.cons_append, statements_cons hends, ← List.cons_append, hrun ts hts]
      simp only [hrest ts hts]

/-- **Outside all braces** statements are read up to the end of the sealed tokens, and then what
comes behind them. -/
theorem statements_outside (hp : Bounded many p.toParser) (h : Sealed many 0 us) :
    ∃ ss es, (∀ ts, NoElse ts → statements p (us ++ ts) =
        ⟨ss ++ (statements p ts).statements, es ++ (statements p ts).errors,
          (statements p ts).rest⟩) ∧ (many ∨ es.length ≤ 1) := by
  induction hn : us.length using Nat.strongRecOn generalizing us with
  | ind n ih =>
    cases us with
    | nil => exact h.elim
    | cons t us =>
      have hends : endsStatements t = false := by
        have ht : t.kind ≠ .rightBrace := fun ht => absurd (h.closes ht).2.1 (Nat.lt_irrefl 0)
        simp [endsStatements, ht, h.1]
      obtain ⟨s?, es, vs, hrun, hended, hmany, hlength⟩ :=
        recovering_append hp h (by rintro _ ⟨⟩; exact hends)
      obtain ⟨-, rfl⟩ | ⟨hm, hvs⟩ := hended
      · refine ⟨s?.toList, es, fun ts hts => ?_, hmany⟩
        rw [List.cons_append, statements_cons hends, ← List.cons_append, hrun ts hts]
        rfl
      · obtain ⟨ss, es', hrest, -⟩ := ih vs.length (hn ▸ hlength) hvs rfl
        refine ⟨s?.toList ++ ss, es ++ es', fun ts hts => ?_, .inl hm⟩
        rw [List.cons_append, statements_cons hends, ← List.cons_append, hrun ts hts]
        simp only [hrest ts hts, List.append_assoc]

/-- **A block ends with the brace that closes it**: errors inside stay inside. -/
theorem local_blockBody {before : List Token → Prop} (hp : Bounded many p.toParser)
    (hmany : many) (h : Sealed many (depth + 1) us) :
    Local many (Ended many depth) before (blockBody p) us := by
  obtain ⟨ss, es, t, vs, hrun, ht, hvs⟩ := statements_inside hp h
  have hlist : Local many (· = t :: vs) before (statementList p) us :=
    .intro (.ok ss) es (t :: vs) (fun ts hts => by simp only [statementList, hrun ts hts])
      (.inl hmany) rfl
  refine hlist.bind fun body ws hws => ?_
  obtain ⟨-, -, hrest⟩ := hvs.closes ht
  subst hws
  have hbrace : Local many (Ended many depth) before (expect .rightBrace .blockEnd) (t :: vs) := by
    refine local_headed (fun q hq => ?_) fun hnone => ?_
    · rw [if_pos ht] at hq
      cases hq
      exact local_succeed t (.inr ⟨hmany, hrest⟩)
    · rw [if_pos ht] at hnone
      cases hnone
  exact hbrace.bind fun _ _ hended => local_succeed body hended

end Lists

/-! ## Statements -/

section Bounded

variable {α β : Type} {many : Prop}

theorem Inline.bounded {p : Parser α} {f : α → Parser β} (hp : Inline many p)
    (hf : ∀ a, Bounded many (f a)) : Bounded many (p >>= f) :=
  fun depth us h => (hp depth us h).bind fun a vs hvs => hf a depth vs hvs

theorem Bounded.map {p : Parser α} (hp : Bounded many p) (f : α → β) :
    Bounded many (p >>= fun a => pure (f a)) :=
  fun depth us h => (hp depth us h).bind fun _ _ hended => local_succeed _ hended

theorem bounded_semicolon (expected : Expectation) :
    Bounded many (expect .semicolon expected) := by
  intro depth us h
  cases us with
  | nil => exact h.elim
  | cons t us =>
    refine local_headed (fun p hp => ?_) fun _ => local_unexpected expected h
    split_ifs at hp with ht
    cases hp
    exact local_succeed t (h.semicolon ht)

theorem bounded_enter {ι : Type} {inner : Option ι} (line : Nat) {p : ι → Parser α}
    (h : ∀ i ∈ inner, Bounded many (p i)) : Bounded many (enter inner line p) := by
  cases inner with
  | none => exact fun _ _ h => local_fail _ h
  | some i => exact h i rfl

theorem Bounded.headed {choice : Token → Option (Parser α)} {otherwise : Parser α}
    (hplain : ∀ t p, choice t = some p → Plain t ∧ Bounded many p)
    (hotherwise : Bounded many otherwise) : Bounded many (headed choice otherwise) := by
  intro depth us h
  cases us with
  | nil => exact h.elim
  | cons t us =>
    refine local_headed (fun p hp => ?_) fun _ => hotherwise depth _ h
    obtain ⟨ht, hbounded⟩ := hplain t p hp
    exact hbounded depth us (h.plain ht)

/-- The parsers one level further in. -/
structure StmtParsers.Bounded (many : Prop) (i : StmtParsers) : Prop where
  expression : Inline many i.expression
  statement : Grammar.Bounded many i.statement.toParser
  declaration : Grammar.Bounded many i.declaration.toParser

section Forms

variable {inner : StmtParsers} (h : inner.Bounded many) (line : Nat)
include h

/-- **A conditional looks for its other branch**, which is all that is seen of what comes behind. -/
theorem bounded_conditional : Bounded many (conditional inner line) := by
  refine h.expression.bounded fun condition depth us hus => ?_
  refine (h.statement depth us hus).bind fun yes vs hvs => ?_
  obtain ⟨hdepth, rfl⟩ | ⟨hmany, hvs⟩ := hvs
  · refine (local_succeed (.ifThen line condition yes) (.inl ⟨hdepth, rfl⟩)).of_run_eq
      fun ts hts => ?_
    cases ts with
    | nil => rfl
    | cons t ts =>
      simp only [List.nil_append, headed, if_neg (hts t rfl)]
  · cases vs with
    | nil => exact hvs.elim
    | cons t vs =>
      refine local_headed (fun p hp => ?_) fun _ => local_succeed _ (.inr ⟨hmany, hvs⟩)
      split_ifs at hp with ht
      cases hp
      exact h.statement.map _ depth vs (hvs.plain (by simp [Plain, ht]))

theorem bounded_whileLoop : Bounded many (whileLoop inner line) :=
  h.expression.bounded fun _ => h.statement.map _

theorem bounded_forLoop : Bounded many (forLoop inner line) :=
  (inline_name _).bounded fun _ =>
    (inline_expect _ fun t ht => by simp [Plain, ht]).bounded fun _ =>
      h.expression.bounded fun _ => h.statement.map _

theorem bounded_giveBack : Bounded many (giveBack inner line) := by
  intro depth us hus
  cases us with
  | nil => exact hus.elim
  | cons t us =>
    refine local_headed (fun p hp => ?_) fun _ => ?_
    · split_ifs at hp with ht
      cases hp
      exact local_succeed _ (hus.semicolon ht)
    · exact (h.expression.bounded fun _ => (bounded_semicolon _).map _) depth _ hus

theorem bounded_expressionStatement : Bounded many (expressionStatement inner line) :=
  h.expression.bounded fun _ => (bounded_semicolon _).map _

end Forms

theorem bounded_statementWith {inner : Option StmtParsers} (h : ∀ i ∈ inner, i.Bounded many) :
    Bounded many (statementWith inner).toParser := by
  intro depth us hus
  cases us with
  | nil => exact hus.elim
  | cons t us =>
    have hrun : Bounded many (enter inner t.line fun i =>
        headed (keywordStatement? i) (expressionStatement i t.line)) := by
      refine bounded_enter t.line fun i hi => ?_
      have hi := h i hi
      intro depth us hus
      cases us with
      | nil => exact hus.elim
      | cons t' us =>
        refine local_headed (fun p hp => ?_) fun _ =>
          bounded_expressionStatement hi t.line depth _ hus
        unfold keywordStatement? at hp
        split at hp <;> rename_i ht' <;> cases hp
        · obtain ⟨hmany, hinside⟩ := hus.opens ht'
          exact (local_blockBody hi.declaration hmany hinside).bind fun body vs hended =>
            local_succeed _ hended
        · exact bounded_conditional hi _ depth us (hus.plain (by simp [Plain, ht']))
        · exact bounded_whileLoop hi _ depth us (hus.plain (by simp [Plain, ht']))
        · exact bounded_forLoop hi _ depth us (hus.plain (by simp [Plain, ht']))
        · exact bounded_giveBack hi _ depth us (hus.plain (by simp [Plain, ht']))
    exact (hrun depth (t :: us) hus).of_run_eq fun ts _ => rfl

theorem bounded_function {inner : Option StmtParsers} (h : ∀ i ∈ inner, i.Bounded many)
    (line : Nat) : Bounded many (function inner line) := by
  refine (inline_name _).bounded fun functionName => ?_
  refine (inline_expect _ fun t ht => by simp [Plain, ht]).bounded fun _ => ?_
  refine (inline_commaList (inline_name _)).bounded fun params => ?_
  split_ifs
  · exact fun _ _ h => local_fail _ h
  refine bounded_enter line fun i hi => Bounded.map (fun depth us hus => ?_) _
  cases us with
  | nil => exact hus.elim
  | cons t us =>
    refine local_headed (fun p hp => ?_) fun _ => (h i hi).statement.map _ depth _ hus
    split_ifs at hp with ht
    cases hp
    obtain ⟨hmany, hinside⟩ := hus.opens ht
    exact local_blockBody (h i hi).declaration hmany hinside

theorem bounded_variableDeclaration {expression : Parser Expr} (h : Inline many expression)
    (line : Nat) : Bounded many (variableDeclaration expression line) := by
  refine (inline_name _).bounded fun variableName => ?_
  refine Inline.bounded ?_ fun initial => (bounded_semicolon _).map _
  refine Inline.headed (fun t p hp => ?_) (inline_succeed none)
  split_ifs at hp with ht
  cases hp
  exact ⟨by simp [Plain, ht], h.bind fun _ => inline_pure _⟩

theorem bounded_declarationWith {expression : Parser Expr} {inner : Option StmtParsers}
    (hexpression : Inline many expression) (h : ∀ i ∈ inner, i.Bounded many) :
    Bounded many (declarationWith expression inner).toParser := by
  refine Bounded.headed (fun t p hp => ?_) (bounded_statementWith h)
  split at hp <;> cases hp
  · rename_i ht
    exact ⟨by simp [Plain, ht], bounded_function h t.line⟩
  · rename_i ht
    exact ⟨by simp [Plain, ht], bounded_variableDeclaration hexpression t.line⟩

theorem bounded_stmtLevel (room : Nat) : ∀ i ∈ stmtLevel room, i.Bounded many := by
  induction room with
  | zero => exact nofun
  | succ room ih =>
    rintro i ⟨⟩
    exact ⟨inline_expression room, bounded_statementWith ih,
      bounded_declarationWith (inline_expression room) ih⟩

/-- **A declaration does not look behind sealed tokens.** -/
theorem bounded_declaration (room : Nat) : Bounded many (declaration room).toParser :=
  bounded_declarationWith (inline_expression room) (bounded_stmtLevel room)

end Bounded

/-! ## Programs -/

theorem program_of_brace {p : Consuming Stmt} {ts rest : List Token} {t : Token}
    (h : (statements p ts).rest = t :: rest) (ht : t.kind = .rightBrace) :
    program p ts =
      ⟨(statements p ts).statements ++ (program p rest).statements,
        (statements p ts).errors ++ unexpectedAt .statement (t :: rest) :: (program p rest).errors,
        (program p rest).rest⟩ := by
  rw [program]
  split
  · rename_i t' rest' h'
    cases h.symm.trans h'
    rw [if_pos ht]
  · rename_i h'
    cases h.symm.trans h'

theorem program_of_end {p : Consuming Stmt} {ts : List Token}
    (h : ∀ t ∈ (statements p ts).rest.head?, t.kind ≠ .rightBrace) :
    program p ts = statements p ts := by
  rw [program]
  split
  · rename_i t rest h'
    rw [if_neg (h t (by rw [h']; rfl))]
  · rfl

theorem program_of_statements {p : Consuming Stmt} {us ts : List Token} {ss : List Stmt}
    {es : List ParseError}
    (h : statements p us =
      ⟨ss ++ (statements p ts).statements, es ++ (statements p ts).errors,
        (statements p ts).rest⟩) :
    program p us =
      ⟨ss ++ (program p ts).statements, es ++ (program p ts).errors, (program p ts).rest⟩ := by
  by_cases hbrace : ∀ t ∈ (statements p ts).rest.head?, t.kind ≠ .rightBrace
  · rw [program_of_end hbrace, program_of_end (by rw [h]; exact hbrace), h]
  · push Not at hbrace
    obtain ⟨t, ht, hkind⟩ := hbrace
    obtain ⟨rest, hrest⟩ := List.head?_eq_some_iff.mp ht
    rw [program_of_brace hrest hkind, program_of_brace (by rw [h]; exact hrest) hkind, h]
    simp only [List.append_assoc]

theorem program_end {p : Consuming Stmt} {e : Token} (he : e.kind = .endOfInput) :
    program p [e] = ⟨[], [], [e]⟩ := by
  have hstatements : statements p [e] = ⟨[], [], [e]⟩ := by
    rw [statements, dif_pos (by simp [endsStatements, he])]
  rw [program_of_end, hstatements]
  rw [hstatements]
  rintro _ ⟨⟩
  rw [he]
  decide

/-- How many braces are opened. -/
def opened (ts : List Token) : Nat := ts.countP (·.kind == .leftBrace)

/-- How many braces are closed. -/
def closed (ts : List Token) : Nat := ts.countP (·.kind == .rightBrace)

/-- **Complete tokens**: no closing brace comes before its opening brace, and the last token is a
semicolon outside all braces. -/
structure Complete (ts : List Token) : Prop where
  noEnd : ∀ t ∈ ts, t.kind ≠ .endOfInput
  matching : ∀ us, us <+: ts → closed us ≤ opened us
  ends : ∃ us t, ts = us ++ [t] ∧ t.kind = .semicolon ∧ closed us = opened us

/-- **A single statement**, or an attempt at one: there are no braces, no semicolon but the last
token, and no keyword that starts a statement behind the first token. -/
structure Single (ts : List Token) : Prop where
  noBrace : ∀ t ∈ ts, t.kind ≠ .leftBrace ∧ t.kind ≠ .rightBrace
  semicolon : ∀ t ∈ ts.dropLast, t.kind ≠ .semicolon
  keyword : ∀ t ∈ ts.tail, ¬ t.kind.startsStatement

theorem closed_cons {depth : Nat} {t : Token} (h : t.kind = .rightBrace → 0 < depth)
    (ts : List Token) :
    closed (t :: ts) + (braceDepth depth t.kind + opened ts) =
      closed ts + (depth + opened (t :: ts)) := by
  simp only [closed, opened, List.countP_cons]
  by_cases hleft : t.kind = .leftBrace
  · simp only [hleft, braceDepth, beq_self_eq_true, if_true]
    simp
    omega
  by_cases hright : t.kind = .rightBrace
  · have hdepth := h hright
    simp only [hright, braceDepth, beq_self_eq_true, if_true]
    simp
    omega
  · have hdepth : braceDepth depth t.kind = depth := by
      cases hk : t.kind <;> simp_all [braceDepth]
    simp [hleft, hright, hdepth]

theorem sealed_of_matching {many : Prop} {depth : Nat} {us : List Token} {last : Token}
    (hend : ∀ t ∈ us ++ [last], t.kind ≠ .endOfInput)
    (hmatching : ∀ vs, vs <+: us → closed vs ≤ depth + opened vs)
    (hclosed : closed us = depth + opened us) (hlast : last.kind = .semicolon)
    (hmany : many ∨ (∀ t ∈ us, Plain t) ∧ ∀ t ∈ (us ++ [last]).tail, ¬ t.kind.startsStatement) :
    Sealed many depth (us ++ [last]) := by
  induction us generalizing depth with
  | nil =>
    have hdepth : depth = 0 := by simpa [closed, opened] using hclosed.symm
    exact ⟨hend last (by simp), by simp [hlast], .inl ⟨rfl, hdepth, hlast⟩⟩
  | cons t us ih =>
    have hpositive : t.kind = .rightBrace → 0 < depth := by
      intro ht
      have hfirst := hmatching [t] (by simp)
      simpa [closed, opened, ht, Nat.one_le_iff_ne_zero, Nat.pos_iff_ne_zero] using hfirst
    refine ⟨hend t (by simp), hpositive, .inr ⟨ih ?_ ?_ ?_ ?_, ?_⟩⟩
    · exact fun t' ht' => hend t' (by simp_all)
    · intro vs hvs
      have hprefix := hmatching (t :: vs) (by simpa using hvs)
      have hcons := closed_cons hpositive vs
      omega
    · have hcons := closed_cons hpositive us
      omega
    · refine hmany.imp id fun ⟨hplain, hkeyword⟩ => ⟨fun t' ht' => hplain t' (by simp [ht']), ?_⟩
      exact fun t' ht' => hkeyword t' (List.mem_of_mem_tail ht')
    · refine hmany.imp id fun ⟨hplain, hkeyword⟩ => ⟨hplain t (by simp), ?_⟩
      obtain ⟨next, hnext⟩ : ∃ next, (us ++ [last]).head? = some next :=
        ⟨_, List.head?_eq_some_head (by simp)⟩
      rw [List.append_eq, hnext]
      exact hkeyword next (List.mem_of_mem_head? hnext)

theorem Complete.sealed {ts : List Token} (h : Complete ts) : Sealed True 0 ts := by
  obtain ⟨us, last, rfl, hlast, hclosed⟩ := h.ends
  refine sealed_of_matching h.noEnd (fun vs hvs => ?_) (by omega) hlast (.inl trivial)
  have hmatching := h.matching vs (hvs.trans (List.prefix_append us [last]))
  omega

theorem Single.sealed {ts : List Token} (hsingle : Single ts) (h : Complete ts) :
    Sealed False 0 ts := by
  obtain ⟨us, last, rfl, hlast, hclosed⟩ := h.ends
  refine sealed_of_matching h.noEnd (fun vs hvs => ?_) (by omega) hlast (.inr ⟨?_, ?_⟩)
  · have hmatching := h.matching vs (hvs.trans (List.prefix_append us [last]))
    omega
  · intro t ht
    obtain ⟨hleft, hright⟩ := hsingle.noBrace t (List.mem_append_left _ ht)
    exact ⟨hleft, hright, hsingle.semicolon t (by simpa using ht)⟩
  · exact hsingle.keyword

/-- What complete tokens give, whatever comes behind them. -/
theorem program_complete {many : Prop} {us : List Token} (h : Sealed many 0 us) (room : Nat) :
    ∃ ss es, (many ∨ es.length ≤ 1) ∧ ∀ ts, NoElse ts →
      program (declaration room) (us ++ ts) =
        ⟨ss ++ (program (declaration room) ts).statements,
          es ++ (program (declaration room) ts).errors, (program (declaration room) ts).rest⟩ := by
  obtain ⟨ss, es, hrun, hmany⟩ := statements_outside (bounded_declaration room) h
  exact ⟨ss, es, hmany, fun ts hts => program_of_statements (hrun ts hts)⟩

/-- **Errors do not spread.** Tokens `us` that are complete and tokens `vs` that do not start with
`else` give, one behind the other, the statements and errors of the first and then those of the
second. An attempt at a single statement gives at most one error. -/
theorem program_append (us vs : List Token) (e e' : Token) (he : e.kind = .endOfInput)
    (he' : e'.kind = .endOfInput) (hus : Complete us) (hvs : NoElse vs) :
    (program (declaration maxNesting) (us ++ vs ++ [e])).statements =
        (program (declaration maxNesting) (us ++ [e'])).statements ++
          (program (declaration maxNesting) (vs ++ [e])).statements ∧
      (program (declaration maxNesting) (us ++ vs ++ [e])).errors =
        (program (declaration maxNesting) (us ++ [e'])).errors ++
          (program (declaration maxNesting) (vs ++ [e])).errors ∧
      (Single us → (program (declaration maxNesting) (us ++ [e'])).errors.length ≤ 1) := by
  have hend : ∀ {e : Token}, e.kind = .endOfInput → NoElse [e] := by
    rintro e he _ ⟨⟩
    rw [he]
    decide
  have hbehind : NoElse (vs ++ [e]) := by
    cases vs with
    | nil => exact hend he
    | cons t vs => exact hvs
  obtain ⟨ss, es, -, hrun⟩ := program_complete hus.sealed maxNesting
  have hfirst := hrun [e'] (hend he')
  rw [program_end he'] at hfirst
  refine ⟨?_, ?_, fun hsingle => ?_⟩
  · rw [List.append_assoc, hrun _ hbehind, hfirst]
    simp only [List.append_nil]
  · rw [List.append_assoc, hrun _ hbehind, hfirst]
    simp only [List.append_nil]
  · obtain ⟨ss', es', hfew, hrun'⟩ := program_complete (hsingle.sealed hus) maxNesting
    rw [hrun' _ (hend he'), program_end he']
    simpa only [List.append_nil, false_or] using hfew

/-- Two names without an operator between them, before a statement that is read. -/
theorem program_append_names :
    let us : List Token := [⟨.identifier, "a", none, 1⟩, ⟨.identifier, "b", none, 1⟩,
      ⟨.semicolon, ";", none, 1⟩]
    let vs : List Token := [⟨.kwNull, "null", some .null, 2⟩, ⟨.semicolon, ";", none, 2⟩]
    Complete us ∧ Single us ∧ NoElse vs ∧
      (program (declaration maxNesting) (us ++ vs ++ [Token.endOfInput 2])).statements =
        (program (declaration maxNesting) (us ++ [Token.endOfInput 2])).statements ++
          (program (declaration maxNesting) (vs ++ [Token.endOfInput 2])).statements ∧
      (program (declaration maxNesting) (us ++ vs ++ [Token.endOfInput 2])).errors =
        (program (declaration maxNesting) (us ++ [Token.endOfInput 2])).errors ++
          (program (declaration maxNesting) (vs ++ [Token.endOfInput 2])).errors ∧
      (program (declaration maxNesting) (us ++ [Token.endOfInput 2])).errors.length ≤ 1 := by
  intro us vs
  have hcomplete : Complete us := {
    noEnd := by decide
    matching := fun ws hws => (by decide : ∀ ws ∈ us.inits, closed ws ≤ opened ws) ws
      ((List.mem_inits ws us).mpr hws)
    ends := ⟨[⟨.identifier, "a", none, 1⟩, ⟨.identifier, "b", none, 1⟩],
      ⟨.semicolon, ";", none, 1⟩, rfl, rfl, rfl⟩ }
  have hsingle : Single us := ⟨by decide, by decide, by decide⟩
  have hvs : NoElse vs := by rintro _ ⟨⟩; decide
  obtain ⟨hstatements, herrors, hfew⟩ :=
    program_append us vs (.endOfInput 2) (.endOfInput 2) rfl rfl hcomplete hvs
  exact ⟨hcomplete, hsingle, hvs, hstatements, herrors, hfew hsingle⟩

end Grammar

end Scriptlet
