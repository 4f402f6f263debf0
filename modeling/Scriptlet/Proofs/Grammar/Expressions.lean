import Scriptlet.Proofs.Grammar.Writing

/-!
# Expressions are read as they are written

Each parser for expressions reads exactly the expressions of its level that nest no deeper than it
has room for, and takes as many tokens as it can: it stops where no token goes on with the
expression.

* `Phrase`: an expression of a level, with the tokens that write it.
* `ReadsPhrases`: **a parser reads the phrases of a level**.
* `readsPhrases_leftAssoc`: operators of one level, grouped to the left.
* `readsPhrases_expression`: expressions with a given room.
-/

namespace Scriptlet

namespace Grammar

open Scriptlet.Parser

/-- **A phrase**: an expression of level `k` or above that nests less than `n` levels deep, and the
tokens that write it. -/
structure Phrase (k n : Nat) (e : Expr) (used : List Token) : Prop where
  written : e.Written used
  level : k ≤ e.level
  wellFormed : e.WellFormed
  depth : e.depth < n

/-- The parser reads exactly the phrases, each as far as it goes. -/
def ReadsPhrases (k n : Nat) (p : Parser Expr) : Prop :=
  p.Recognizes (Phrase k n) fun _ => Stops k

theorem Phrase.mono {j k n : Nat} {e : Expr} {used : List Token} (h : Phrase k n e used)
    (hj : j ≤ k) : Phrase j n e used :=
  ⟨h.written, Nat.le_trans hj h.level, h.wellFormed, h.depth⟩

theorem readsPhrases_enter_none {k : Nat} (line : Nat) (f : ExprParsers → Parser Expr) :
    ReadsPhrases k 0 (enter none line f) := by
  intro ts e rest
  constructor
  · intro h
    exact absurd h not_reads_fail
  · rintro ⟨_, -, h, -⟩
    exact absurd h.depth (Nat.not_lt_zero _)

/-! ## Primaries -/

section Inner

variable {inner : Option ExprParsers} {n : Nat}

theorem readsPhrases_wholeExpression
    (hassign : ∀ line, ReadsPhrases 0 n (enter inner line (·.assignment))) :
    ReadsPhrases 0 n (wholeExpression inner) := by
  intro ts e rest
  simp only [wholeExpression, reads_bind, reads_nextLine]
  constructor
  · rintro ⟨line, _, ⟨-, rfl⟩, h⟩
    exact (hassign line _ _ _).mp h
  · intro h
    exact ⟨_, ts, ⟨rfl, rfl⟩, (hassign _ _ _ _).mpr h⟩

theorem primary_choice {t : Token} {p : Parser Expr} :
    (match t.kind with
      | .number | .doubleQuoted | .singleQuoted | .kwTrue | .kwFalse | .kwNull =>
        some (succeed (.literal t.line (t.literal.getD .null)))
      | .identifier => some (succeed (.var t.line t.lexeme .unresolved))
      | .leftParen => some do
        let e ← wholeExpression inner
        let _ ← expect .rightParen .closingParen
        return .group t.line e
      | _ => none) = some p ↔
    (t.kind.isLiteral ∧ p = succeed (.literal t.line (t.literal.getD .null))) ∨
      (t.kind = .identifier ∧ p = succeed (.var t.line t.lexeme .unresolved)) ∨
        (t.kind = .leftParen ∧ p = do
          let e ← wholeExpression inner
          let _ ← expect .rightParen .closingParen
          return .group t.line e) := by
  cases t.kind <;> simp [TokenKind.isLiteral, eq_comm]

theorem readsPhrases_primary (hwhole : ReadsPhrases 0 n (wholeExpression inner)) :
    ReadsPhrases 9 (n + 1) (primary inner) := by
  intro ts e rest
  rw [primary, reads_headed]
  constructor
  · rintro (⟨t, us, p, rfl, hp, h⟩ | ⟨-, h⟩)
    · rcases primary_choice.mp hp with ⟨hk, rfl⟩ | ⟨hk, rfl⟩ | ⟨hk, rfl⟩
      · obtain ⟨rfl, rfl⟩ := reads_succeed.mp h
        exact ⟨[t], rfl, ⟨.literal hk, Nat.le_refl 9, trivial, Nat.succ_pos n⟩, stops_primary _⟩
      · obtain ⟨rfl, rfl⟩ := reads_succeed.mp h
        exact ⟨[t], rfl, ⟨.var hk, Nat.le_refl 9, trivial, Nat.succ_pos n⟩, stops_primary _⟩
      · simp only [reads_bind, reads_expect, reads_pure] at h
        obtain ⟨e, mid, he, r, _, ⟨rfl, hr⟩, rfl, rfl⟩ := h
        obtain ⟨vs, rfl, hphrase, -⟩ := (hwhole _ _ _).mp he
        refine ⟨t :: vs ++ [r], by simp, ⟨.group hk hphrase.written hr, Nat.le_refl 9,
          hphrase.wellFormed, Nat.succ_lt_succ hphrase.depth⟩, stops_primary _⟩
    · exact absurd h not_reads_unexpected
  · rintro ⟨used, rfl, h, -⟩
    obtain ⟨hwritten, hlevel, hwf, hdepth⟩ := h
    refine .inl ?_
    cases hwritten with
    | @literal t hk =>
      exact ⟨t, rest, _, rfl, primary_choice.mpr (.inl ⟨hk, rfl⟩), reads_succeed.mpr ⟨rfl, rfl⟩⟩
    | @var t hk =>
      exact ⟨t, rest, _, rfl, primary_choice.mpr (.inr (.inl ⟨hk, rfl⟩)),
        reads_succeed.mpr ⟨rfl, rfl⟩⟩
    | @group l r e us hl he hr =>
      refine ⟨l, us ++ r :: rest, _, by simp, primary_choice.mpr (.inr (.inr ⟨hl, rfl⟩)), ?_⟩
      simp only [reads_bind, reads_expect, reads_pure]
      refine ⟨e, r :: rest, (hwhole _ _ _).mpr ⟨us, rfl, ?_, ?_⟩, r, rest, ⟨rfl, hr⟩, rfl, rfl⟩
      · exact ⟨he, Nat.zero_le _, hwf, Nat.lt_of_succ_lt_succ hdepth⟩
      · exact stops_of_none (by rw [hr]; rfl)
    | call | get | unary | assign | set => simp [Expr.level] at hlevel
    | @binary _ op => exact absurd hlevel (Nat.not_le.mpr (Nat.lt_trans op.level_lt (by decide)))
    | @logical _ op => exact absurd hlevel (Nat.not_le.mpr (Nat.lt_trans op.level_lt (by decide)))

/-! ## Calls and members -/

theorem callSuffix_eq_none {e : Expr} {ts : List Token} :
    (∀ t ∈ ts.head?, callSuffix inner e t = none) ↔ Stops 8 ts := by
  have hkind : ∀ t : Token, callSuffix inner e t = none ↔ ∀ j ∈ t.kind.joinLevel?, j < 8 := by
    intro t
    unfold callSuffix
    cases t.kind <;> simp [TokenKind.joinLevel?]
  simp only [hkind, Stops]

theorem callSuffix_leftParen {e : Expr} {t : Token} (ht : t.kind = .leftParen) :
    callSuffix inner e t = some (do
      let arguments ← commaList (wholeExpression inner)
      if maxArguments < arguments.length then fail (.tooManyArguments t.line)
      else return .call t.line e arguments) := by
  unfold callSuffix
  rw [ht]

theorem callSuffix_dot {e : Expr} {t : Token} (ht : t.kind = .dot) :
    callSuffix inner e t = some (do
      let member ← name .propertyName
      return .get t.line member e) := by
  unfold callSuffix
  rw [ht]

theorem kind_of_callSuffix {e : Expr} {t : Token} {p : Parser Expr}
    (h : callSuffix inner e t = some p) : t.kind = .leftParen ∨ t.kind = .dot := by
  unfold callSuffix at h
  split at h
  · exact .inl ‹_›
  · exact .inr ‹_›
  · cases h

theorem reads_arguments (hwhole : ReadsPhrases 0 n (wholeExpression inner)) {args : List Expr}
    {ts rest : List Token} :
    (commaList (wholeExpression inner)).Reads ts args rest ↔
      ∃ used t, ts = used ++ t :: rest ∧ Listed (Phrase 0 n) args used ∧ t.kind = .rightParen := by
  refine reads_commaList hwhole (fun _ t ts ht => stops_of_none ?_) fun e us he => ?_
  · rcases ht with ht | ht <;> rw [ht] <;> rfl
  · obtain ⟨t, vs, rfl, hs, -⟩ := he.written.head
    exact ⟨t, vs, rfl, (TokenKind.of_startsExpression hs).2.2.2.2.1⟩

theorem listed_phrase_iff {args : List Expr} {us : List Token} :
    Listed (Phrase 0 n) args us ↔
      Listed Expr.Written args us ∧ Expr.AllWellFormed args ∧ Expr.argumentDepth args < n + 1 := by
  have hphrase : Phrase 0 n = fun e us => e.Written us ∧ e.WellFormed ∧ e.depth < n := by
    funext e us
    exact propext ⟨fun h => ⟨h.written, h.wellFormed, h.depth⟩,
      fun h => ⟨h.1, Nat.zero_le _, h.2.1, h.2.2⟩⟩
  rw [hphrase, listed_and, Expr.allWellFormed_iff, Expr.argumentDepth_lt_iff]
  simp only [forall_and]

theorem Phrase.callSuffix (hwhole : ReadsPhrases 0 n (wholeExpression inner)) {e c : Expr}
    {used us rest : List Token} {t : Token} {p : Parser Expr} (he : Phrase 8 (n + 1) e used)
    (hp : callSuffix inner e t = some p) (hc : p.Reads us c rest) :
    ∃ vs, us = vs ++ rest ∧ Phrase 8 (n + 1) c (used ++ t :: vs) := by
  obtain ⟨hwritten, hlevel, hwf, hdepth⟩ := he
  rcases kind_of_callSuffix hp with hk | hk
  · obtain rfl := Option.some.inj ((callSuffix_leftParen hk).symm.trans hp)
    simp only [reads_bind, reads_arguments hwhole] at hc
    obtain ⟨args, _, ⟨vs, r, rfl, hargs, hr⟩, hc⟩ := hc
    split_ifs at hc with hmany
    · exact absurd hc not_reads_fail
    · obtain ⟨rfl, rfl⟩ := reads_pure.mp hc
      obtain ⟨hargs, hargsWf, hargsDepth⟩ := listed_phrase_iff.mp hargs
      refine ⟨vs ++ [r], by simp, ?_, Nat.le_refl 8, ?_, ?_⟩
      · simpa using Expr.Written.call hwritten hk hargs hr
      · exact ⟨hlevel, hwf, Nat.not_lt.mp hmany, hargsWf⟩
      · exact Nat.max_lt.mpr ⟨hdepth, hargsDepth⟩
  · obtain rfl := Option.some.inj ((callSuffix_dot hk).symm.trans hp)
    simp only [reads_bind, reads_name, reads_pure] at hc
    obtain ⟨_, _, ⟨m, rfl, hm, rfl⟩, rfl, rfl⟩ := hc
    exact ⟨[m], rfl, .get hwritten hk hm, Nat.le_refl 8, ⟨hlevel, hwf⟩, hdepth⟩

theorem Phrase.of_grows (hwhole : ReadsPhrases 0 n (wholeExpression inner)) {e c : Expr}
    {used ts rest : List Token} (he : Phrase 8 (n + 1) e used)
    (h : Grows (Grammar.callSuffix inner) e ts c rest) :
    ∃ vs, ts = vs ++ rest ∧ Phrase 8 (n + 1) c (used ++ vs) := by
  induction h with
  | refl => exact ⟨[], rfl, by simpa using he⟩
  | @step b c t us rest p _ hmore hp ih =>
    obtain ⟨vs, rfl, hphrase⟩ := ih
    obtain ⟨ws, rfl, hphrase⟩ := hphrase.callSuffix hwhole hmore hp
    exact ⟨vs ++ t :: ws, by simp, by simpa using hphrase⟩

/-- A call starts with a primary, from which the loop leads to it. -/
theorem Phrase.grows (hwhole : ReadsPhrases 0 n (wholeExpression inner)) {e : Expr}
    {used : List Token} (h : Phrase 8 (n + 1) e used) :
    ∃ first us vs, used = us ++ vs ∧ Phrase 9 (n + 1) first us ∧
      ∀ rest, Grows (Grammar.callSuffix inner) first (vs ++ rest) e rest := by
  obtain ⟨hwritten, hlevel, hwf, hdepth⟩ := h
  cases hwritten with
  | literal hk =>
    exact ⟨_, _, [], by simp, ⟨.literal hk, Nat.le_refl 9, hwf, hdepth⟩, fun _ => .refl⟩
  | var hk => exact ⟨_, _, [], by simp, ⟨.var hk, Nat.le_refl 9, hwf, hdepth⟩, fun _ => .refl⟩
  | group hl he hr =>
    exact ⟨_, _, [], by simp, ⟨.group hl he hr, Nat.le_refl 9, hwf, hdepth⟩, fun _ => .refl⟩
  | @call l r c args us vs hc hl hargs hr =>
    obtain ⟨hlevelc, hwfc, hmany, hwfargs⟩ := hwf
    obtain ⟨hdepthc, hdepthargs⟩ := Nat.max_lt.mp hdepth
    obtain ⟨first, ws, xs, rfl, hfirst, hgrows⟩ :=
      Phrase.grows hwhole ⟨hc, hlevelc, hwfc, hdepthc⟩
    refine ⟨first, ws, xs ++ l :: vs ++ [r], by simp, hfirst, fun rest => ?_⟩
    have hstep := hgrows (l :: vs ++ r :: rest)
    have hphrases := listed_phrase_iff.mpr ⟨hargs, hwfargs, hdepthargs⟩
    simp only [List.append_assoc, List.cons_append, List.nil_append] at hstep ⊢
    refine .step hstep (callSuffix_leftParen hl) ?_
    simp only [reads_bind, reads_arguments hwhole]
    refine ⟨args, rest, ⟨vs, r, rfl, hphrases, hr⟩, ?_⟩
    rw [if_neg (Nat.not_lt.mpr hmany)]
    exact reads_pure.mpr ⟨rfl, rfl⟩
  | @get d m o us ho hd hm =>
    obtain ⟨hlevelo, hwfo⟩ := hwf
    obtain ⟨first, ws, xs, rfl, hfirst, hgrows⟩ :=
      Phrase.grows hwhole ⟨ho, hlevelo, hwfo, hdepth⟩
    refine ⟨first, ws, xs ++ [d, m], by simp, hfirst, fun rest => ?_⟩
    have hstep := hgrows (d :: m :: rest)
    simp only [List.append_assoc, List.cons_append, List.nil_append] at hstep ⊢
    refine .step hstep (callSuffix_dot hd) ?_
    simp only [reads_bind, reads_name, reads_pure]
    exact ⟨m.lexeme, rest, ⟨m, rfl, hm, rfl⟩, rfl, rfl⟩
  | unary | assign | set => simp [Expr.level] at hlevel
  | @binary _ op => exact absurd hlevel (Nat.not_le.mpr (Nat.lt_trans op.level_lt (by decide)))
  | @logical _ op => exact absurd hlevel (Nat.not_le.mpr (Nat.lt_trans op.level_lt (by decide)))
termination_by e

theorem readsPhrases_call (hwhole : ReadsPhrases 0 n (wholeExpression inner)) :
    ReadsPhrases 8 (n + 1) (call inner) := by
  have hprimary := readsPhrases_primary hwhole
  intro ts e rest
  simp only [call, reads_bind, reads_extend, callSuffix_eq_none]
  constructor
  · rintro ⟨first, mid, hfirst, hgrows, hstop⟩
    obtain ⟨us, rfl, hus, -⟩ := (hprimary _ _ _).mp hfirst
    obtain ⟨vs, rfl, he⟩ := (hus.mono (by decide)).of_grows hwhole hgrows
    exact ⟨us ++ vs, by simp, he, hstop⟩
  · rintro ⟨used, rfl, he, hstop⟩
    obtain ⟨first, us, vs, rfl, hfirst, hgrows⟩ := he.grows hwhole
    exact ⟨first, vs ++ rest, (hprimary _ _ _).mpr ⟨us, by simp, hfirst, stops_primary _⟩,
      hgrows rest, hstop⟩

/-! ## Unary operators -/

theorem stops_seven {ts : List Token} : Stops 7 ts ↔ Stops 8 ts := by
  rw [stops_succ]
  refine and_iff_left fun t _ => ?_
  cases t.kind <;> decide

theorem readsPhrases_unary (hunary : ∀ line, ReadsPhrases 7 n (enter inner line (·.unary)))
    (hwhole : ReadsPhrases 0 n (wholeExpression inner)) :
    ReadsPhrases 7 (n + 1) (unary inner) := by
  have hcall := readsPhrases_call hwhole
  intro ts e rest
  rw [unary, reads_headed]
  constructor
  · rintro (⟨t, us, p, rfl, hp, h⟩ | ⟨-, h⟩)
    · obtain ⟨op, hop, rfl⟩ := Option.map_eq_some_iff.mp hp
      simp only [reads_bind, reads_pure] at h
      obtain ⟨e, _, he, rfl, rfl⟩ := h
      obtain ⟨vs, rfl, he, hstop⟩ := (hunary _ _ _ _).mp he
      exact ⟨t :: vs, rfl, ⟨.unary hop he.written, Nat.le_refl 7, ⟨he.level, he.wellFormed⟩,
        Nat.succ_lt_succ he.depth⟩, hstop⟩
    · obtain ⟨us, rfl, he, hstop⟩ := (hcall _ _ _).mp h
      exact ⟨us, rfl, he.mono (by decide), stops_seven.mpr hstop⟩
  · rintro ⟨used, rfl, ⟨hwritten, hlevel, hwf, hdepth⟩, hstop⟩
    rcases Nat.lt_or_ge 7 e.level with hlt | hge
    · -- a call, whose first token is no operator
      refine .inr ⟨?_, (hcall _ _ _).mpr ⟨used, rfl, ⟨hwritten, hlt, hwf, hdepth⟩,
        stops_seven.mp hstop⟩⟩
      obtain ⟨t, us, rfl, -⟩ := hwritten.head
      simp [hwritten.unaryOp?_head hlt hwf]
    · refine .inl ?_
      cases hwritten with
      | @unary t op e us hop he =>
        refine ⟨t, us ++ rest, _, rfl, Option.map_eq_some_iff.mpr ⟨op, hop, rfl⟩, ?_⟩
        simp only [reads_bind, reads_pure]
        refine ⟨e, rest, (hunary _ _ _ _).mpr ⟨us, rfl, ?_, hstop⟩, rfl, rfl⟩
        exact ⟨he, hwf.1, hwf.2, Nat.lt_of_succ_lt_succ hdepth⟩
      | literal | var | group | call | get => simp [Expr.level] at hge
      | assign | set => simp [Expr.level] at hlevel
      | @binary _ op => exact absurd hlevel (Nat.not_le.mpr op.level_lt)
      | @logical _ op => exact absurd hlevel (Nat.not_le.mpr op.level_lt)

end Inner

/-! ## Binary operators -/

/-- What `leftAssoc` needs to know of the operators of level `k`. -/
structure Joins (k : Nat) (join? : Token → Option (Expr → Expr → Expr)) : Prop where
  announced (t : Token) : (join? t).isSome ↔ t.kind.joinLevel? = some k
  written {t : Token} {join : Expr → Expr → Expr} {l r : Expr} {us vs : List Token}
    (h : join? t = some join) (hl : l.Written us) (hr : r.Written vs) :
    (join l r).Written (us ++ t :: vs)
  level {t : Token} {join : Expr → Expr → Expr} {l r : Expr} (h : join? t = some join) :
    (join l r).level = k
  wellFormed {t : Token} {join : Expr → Expr → Expr} {l r : Expr} (h : join? t = some join) :
    (join l r).WellFormed ↔ k ≤ l.level ∧ k < r.level ∧ l.WellFormed ∧ r.WellFormed
  depth {t : Token} {join : Expr → Expr → Expr} {l r : Expr} (h : join? t = some join) :
    (join l r).depth = max l.depth r.depth
  split {e : Expr} {used : List Token} (he : e.Written used) (hlevel : e.level = k) :
    ∃ t join l r us vs, join? t = some join ∧ e = join l r ∧ used = us ++ t :: vs ∧
      l.Written us ∧ r.Written vs

section LeftAssoc

variable {k n : Nat} {join? : Token → Option (Expr → Expr → Expr)} (hjoins : Joins k join?)
  {operand : Parser Expr} (hoperand : ReadsPhrases (k + 1) n operand)

/-- The turns of the loop over operators. -/
def nextOperand (operand : Parser Expr) (join? : Token → Option (Expr → Expr → Expr))
    (left : Expr) (t : Token) : Option (Parser Expr) :=
  (join? t).map fun join => do
    let right ← operand
    return join left right

include hjoins

theorem nextOperand_eq_none {e : Expr} {ts : List Token} :
    (∀ t ∈ ts.head?, nextOperand operand join? e t = none) ↔
      ∀ t ∈ ts.head?, t.kind.joinLevel? ≠ some k := by
  refine forall₂_congr fun t _ => ?_
  rw [nextOperand, Option.map_eq_none_iff, Ne, ← hjoins.announced, Option.not_isSome_iff_eq_none]

include hoperand

theorem Phrase.of_grows_operand {e c : Expr} {used ts rest : List Token} (he : Phrase k n e used)
    (hstop : Stops (k + 1) ts) (h : Grows (nextOperand operand join?) e ts c rest) :
    ∃ vs, ts = vs ++ rest ∧ Phrase k n c (used ++ vs) ∧ Stops (k + 1) rest := by
  induction h with
  | refl => exact ⟨[], rfl, by simpa using he, hstop⟩
  | @step b c t us rest p _ hmore hp ih =>
    obtain ⟨vs, rfl, ⟨hwritten, hlevel, hwf, hdepth⟩, -⟩ := ih
    obtain ⟨join, hjoin, rfl⟩ := Option.map_eq_some_iff.mp hmore
    simp only [reads_bind, reads_pure] at hp
    obtain ⟨r, _, hr, rfl, rfl⟩ := hp
    obtain ⟨ws, rfl, hr, hstop⟩ := (hoperand _ _ _).mp hr
    refine ⟨vs ++ t :: ws, by simp, ⟨?_, ?_, ?_, ?_⟩, hstop⟩
    · simpa using hjoins.written hjoin hwritten hr.written
    · exact Nat.le_of_eq (hjoins.level hjoin).symm
    · exact (hjoins.wellFormed hjoin).mpr ⟨hlevel, hr.level, hwf, hr.wellFormed⟩
    · rw [hjoins.depth hjoin]
      exact Nat.max_lt.mpr ⟨hdepth, hr.depth⟩

theorem Phrase.grows_operand {e : Expr} {used : List Token} (h : Phrase k n e used) :
    ∃ first us vs, used = us ++ vs ∧ Phrase (k + 1) n first us ∧ 
      ∀ rest, Stops (k + 1) rest → Stops (k + 1) (vs ++ rest) ∧
        Grows (nextOperand operand join?) first (vs ++ rest) e rest := by
  -- the left operand is written by fewer tokens
  induction hlength : used.length using Nat.strongRecOn generalizing e used with | _ m ih
  obtain ⟨hwritten, hlevel, hwf, hdepth⟩ := h
  rcases Nat.lt_or_eq_of_le hlevel with hlt | heq
  · exact ⟨e, used, [], by simp, ⟨hwritten, hlt, hwf, hdepth⟩, fun rest hs => ⟨hs, .refl⟩⟩
  · obtain ⟨t, join, l, r, us, vs, hjoin, rfl, rfl, hl, hr⟩ := hjoins.split hwritten heq.symm
    obtain ⟨hlevell, hlevelr, hwfl, hwfr⟩ := (hjoins.wellFormed hjoin).mp hwf
    rw [hjoins.depth hjoin] at hdepth
    obtain ⟨hdepthl, hdepthr⟩ := Nat.max_lt.mp hdepth
    obtain ⟨first, ws, xs, rfl, hfirst, hgrows⟩ :=
      ih us.length (by simp [← hlength]) ⟨hl, hlevell, hwfl, hdepthl⟩ rfl
    refine ⟨first, ws, xs ++ t :: vs, by simp, hfirst, fun rest hstop => ?_⟩
    have ht : t.kind.joinLevel? = some k := (hjoins.announced t).mp (by rw [hjoin]; rfl)
    have hstopt : Stops (k + 1) (t :: (vs ++ rest)) := by
      rw [stops_cons, ht]
      simp
    obtain ⟨hs, hstep⟩ := hgrows _ hstopt
    simp only [List.append_assoc, List.cons_append]
    refine ⟨hs, .step hstep (Option.map_eq_some_iff.mpr ⟨join, hjoin, rfl⟩) ?_⟩
    simp only [reads_bind, reads_pure]
    exact ⟨r, rest, (hoperand _ _ _).mpr ⟨vs, rfl, ⟨hr, hlevelr, hwfr, hdepthr⟩, hstop⟩, rfl, rfl⟩

/-- **Operators of one level are grouped to the left.** -/
theorem readsPhrases_leftAssoc : ReadsPhrases k n (leftAssoc operand join?) := by
  intro ts e rest
  change (do
    let first ← operand
    extend (nextOperand operand join?) first).Reads ts e rest ↔ _
  simp only [reads_bind, reads_extend, nextOperand_eq_none hjoins]
  constructor
  · rintro ⟨first, mid, hfirst, hgrows, hlast⟩
    obtain ⟨us, rfl, hus, hstop⟩ := (hoperand _ _ _).mp hfirst
    obtain ⟨vs, rfl, he, hstop⟩ :=
      (hus.mono (Nat.le_succ k)).of_grows_operand hjoins hoperand hstop hgrows
    exact ⟨us ++ vs, by simp, he, stops_succ.mpr ⟨hstop, hlast⟩⟩
  · rintro ⟨used, rfl, he, hstop⟩
    obtain ⟨first, us, vs, rfl, hfirst, hgrows⟩ := he.grows_operand hjoins hoperand
    obtain ⟨hstop, hlast⟩ := stops_succ.mp hstop
    obtain ⟨hs, hgrows⟩ := hgrows rest hstop
    exact ⟨first, vs ++ rest, (hoperand _ _ _).mpr ⟨us, by simp, hfirst, hs⟩, hgrows, hlast⟩

end LeftAssoc

theorem joinLevel?_binary {kind : TokenKind} {k : Nat} (hk : 3 ≤ k ∧ k ≤ 6) :
    kind.joinLevel? = some k ↔ ∃ op, binaryOp? kind = some op ∧ op.level = k := by
  cases kind <;> simp [TokenKind.joinLevel?, binaryOp?, BinaryOp.level] <;> omega

theorem joinBinary_eq_some {ops : List BinaryOp} {t : Token} {join : Expr → Expr → Expr} :
    joinBinary ops t = some join ↔
      ∃ op, (binaryOp? t.kind = some op ∧ op ∈ ops) ∧ .binary t.line op = join := by
  simp [joinBinary, Option.map_eq_some_iff, Option.filter_eq_some_iff]

theorem joins_binary {ops : List BinaryOp} {k : Nat} (hk : 3 ≤ k ∧ k ≤ 6)
    (hops : ∀ op, op ∈ ops ↔ op.level = k) : Joins k (joinBinary ops) where
  announced t := by
    rw [joinLevel?_binary hk, Option.isSome_iff_exists]
    simp only [joinBinary_eq_some, hops]
    constructor
    · rintro ⟨_, op, h, -⟩
      exact ⟨op, h⟩
    · rintro ⟨op, h⟩
      exact ⟨_, op, h, rfl⟩
  written h hl hr := by
    obtain ⟨op, ⟨hop, -⟩, rfl⟩ := joinBinary_eq_some.mp h
    exact .binary hl hop hr
  level h := by
    obtain ⟨op, ⟨-, hop⟩, rfl⟩ := joinBinary_eq_some.mp h
    exact (hops op).mp hop
  wellFormed h := by
    obtain ⟨op, ⟨-, hop⟩, rfl⟩ := joinBinary_eq_some.mp h
    simp only [Expr.WellFormed, (hops op).mp hop]
  depth h := by
    obtain ⟨op, -, rfl⟩ := joinBinary_eq_some.mp h
    simp only [Expr.depth]
  split {e used} he hlevel := by
    cases he with
    | @binary t op l r us vs hl hop hr =>
      exact ⟨t, _, l, r, us, vs, joinBinary_eq_some.mpr ⟨op, ⟨hop, (hops op).mpr hlevel⟩, rfl⟩,
        rfl, rfl, hl, hr⟩
    | @logical _ op =>
      cases op <;> simp only [Expr.level, LogicalOp.level] at hlevel <;> omega
    | _ =>
      simp only [Expr.level] at hlevel
      omega

theorem joinLogical_eq_some {kind : TokenKind} {op : LogicalOp} {t : Token}
    {join : Expr → Expr → Expr} :
    joinLogical kind op t = some join ↔ t.kind = kind ∧ .logical t.line op = join := by
  simp [joinLogical]

theorem joins_logical (op : LogicalOp) : Joins op.level (joinLogical op.keyword op) where
  announced t := by
    unfold joinLogical
    cases op <;> cases t.kind <;> simp [TokenKind.joinLevel?, LogicalOp.keyword, LogicalOp.level]
  written h hl hr := by
    obtain ⟨hk, rfl⟩ := joinLogical_eq_some.mp h
    exact .logical hl hk hr
  level h := by
    obtain ⟨-, rfl⟩ := joinLogical_eq_some.mp h
    rfl
  wellFormed h := by
    obtain ⟨-, rfl⟩ := joinLogical_eq_some.mp h
    simp only [Expr.WellFormed]
  depth h := by
    obtain ⟨-, rfl⟩ := joinLogical_eq_some.mp h
    simp only [Expr.depth]
  split {e used} he hlevel := by
    have hop : op.level = 1 ∨ op.level = 2 := by cases op <;> decide
    cases he with
    | @logical t op' l r us vs hl hk hr =>
      obtain rfl : op' = op := by cases op' <;> cases op <;> first | rfl | cases hlevel
      exact ⟨t, _, l, r, us, vs, joinLogical_eq_some.mpr ⟨hk, rfl⟩, rfl, rfl, hl, hr⟩
    | @binary _ op' =>
      have : 3 ≤ op'.level := by cases op' <;> decide
      simp only [Expr.level] at hlevel
      omega
    | _ =>
      simp only [Expr.level] at hlevel
      omega

/-! ## Assignments -/

section Inner

variable {inner : Option ExprParsers} {n : Nat}

theorem readsPhrases_logicalOr
    (hunary : ∀ line, ReadsPhrases 7 n (enter inner line (·.unary)))
    (hwhole : ReadsPhrases 0 n (wholeExpression inner)) :
    ReadsPhrases 1 (n + 1) (logicalOr inner) := by
  have hunary := readsPhrases_unary hunary hwhole
  have hmul : ReadsPhrases 6 (n + 1) (multiplicative inner) :=
    readsPhrases_leftAssoc (joins_binary (by decide) (by intro op; cases op <;> decide)) hunary
  have hadd : ReadsPhrases 5 (n + 1) (additive inner) :=
    readsPhrases_leftAssoc (joins_binary (by decide) (by intro op; cases op <;> decide)) hmul
  have hcompare : ReadsPhrases 4 (n + 1) (comparison inner) :=
    readsPhrases_leftAssoc (joins_binary (by decide) (by intro op; cases op <;> decide)) hadd
  have hequal : ReadsPhrases 3 (n + 1) (equality inner) :=
    readsPhrases_leftAssoc (joins_binary (by decide) (by intro op; cases op <;> decide)) hcompare
  have hand : ReadsPhrases 2 (n + 1) (logicalAnd inner) :=
    readsPhrases_leftAssoc (joins_logical .and) hequal
  exact readsPhrases_leftAssoc (joins_logical .or) hand

theorem joinLevel?_equal {kind : TokenKind} : kind.joinLevel? = some 0 ↔ kind = .equal := by
  cases kind <;> decide

theorem Phrase.of_assignTo {target value e : Expr} {line : Nat} {q : Token}
    {us vs ts rest : List Token} (htarget : Phrase 1 (n + 1) target us) (hq : q.kind = .equal)
    (hvalue : Phrase 0 n value vs) (h : (assignTo target value line).Reads ts e rest) :
    ts = rest ∧ Phrase 0 (n + 1) e (us ++ q :: vs) := by
  obtain ⟨hwritten, hlevel, hwf, hdepth⟩ := htarget
  have hdepthv := Nat.succ_lt_succ hvalue.depth
  cases hwritten with
  | var hname =>
    obtain ⟨rfl, rfl⟩ := reads_succeed.mp h
    exact ⟨rfl, .assign hname hq hvalue.written, Nat.zero_le _, hvalue.wellFormed, hdepthv⟩
  | get hobject hdot hname =>
    obtain ⟨rfl, rfl⟩ := reads_succeed.mp h
    refine ⟨rfl, ?_, Nat.zero_le _, ⟨hwf.1, hwf.2, hvalue.wellFormed⟩, ?_⟩
    · simpa using Expr.Written.set hobject hdot hname hq hvalue.written
    · exact Nat.max_lt.mpr ⟨hdepth, hdepthv⟩
  | _ => exact absurd h not_reads_fail

theorem Phrase.assignTo {e : Expr} {used : List Token} (h : Phrase 0 (n + 1) e used)
    (hlevel : e.level = 0) :
    ∃ target us q value vs, used = us ++ q :: vs ∧ Phrase 1 (n + 1) target us ∧ q.kind = .equal ∧
      Phrase 0 n value vs ∧ ∀ line ts, (Grammar.assignTo target value line).Reads ts e ts := by
  obtain ⟨hwritten, -, hwf, hdepth⟩ := h
  cases hwritten with
  | @assign name q v us hname hq hv =>
    exact ⟨_, [name], q, v, us, rfl,
      ⟨.var hname, Nat.succ_le_succ (Nat.zero_le 8), trivial, Nat.succ_pos n⟩, hq,
      ⟨hv, Nat.zero_le _, hwf, Nat.lt_of_succ_lt_succ hdepth⟩,
      fun _ _ => reads_succeed.mpr ⟨rfl, rfl⟩⟩
  | @set d m q o v us vs ho hd hm hq hv =>
    obtain ⟨hlevelo, hwfo, hwfv⟩ := hwf
    obtain ⟨hdeptho, hdepthv⟩ := Nat.max_lt.mp hdepth
    exact ⟨_, us ++ [d, m], q, v, vs, by simp,
      ⟨.get ho hd hm, Nat.succ_le_succ (Nat.zero_le 7), ⟨hlevelo, hwfo⟩, hdeptho⟩, hq,
      ⟨hv, Nat.zero_le _, hwfv, Nat.lt_of_succ_lt_succ hdepthv⟩,
      fun _ _ => reads_succeed.mpr ⟨rfl, rfl⟩⟩
  | literal | var | group | call | get | unary => simp [Expr.level] at hlevel
  | @binary _ op => cases op <;> cases hlevel
  | @logical _ op => cases op <;> cases hlevel

/-- **Assignments are grouped to the right.** -/
theorem readsPhrases_assignment
    (hunary : ∀ line, ReadsPhrases 7 n (enter inner line (·.unary)))
    (hassign : ∀ line, ReadsPhrases 0 n (enter inner line (·.assignment))) :
    ReadsPhrases 0 (n + 1) (assignment inner) := by
  have hor := readsPhrases_logicalOr hunary (readsPhrases_wholeExpression hassign)
  have hnone : ∀ {ts : List Token} {p : Token → Parser Expr},
      (∀ t ∈ ts.head?, (if t.kind = .equal then some (p t) else none) = none) ↔
        ∀ t ∈ ts.head?, t.kind.joinLevel? ≠ some 0 := by
    intro ts p
    refine forall₂_congr fun t _ => ?_
    simp [joinLevel?_equal]
  intro ts e rest
  simp only [assignment, reads_bind, reads_headed, hnone]
  constructor
  · rintro ⟨target, mid, htarget, ⟨q, us, p, rfl, hp, h⟩ | ⟨hstop, h⟩⟩
    · split_ifs at hp with hq
      cases hp
      obtain ⟨value, mid, hvalue, hread⟩ := reads_bind.mp h
      obtain ⟨us, rfl, hus, -⟩ := (hor _ _ _).mp htarget
      obtain ⟨vs, rfl, hvs, hstop⟩ := (hassign _ _ _ _).mp hvalue
      obtain ⟨rfl, he⟩ := hus.of_assignTo hq hvs hread
      exact ⟨us ++ q :: vs, by simp, he, hstop⟩
    · obtain ⟨rfl, rfl⟩ := reads_succeed.mp h
      obtain ⟨us, rfl, he, hstop'⟩ := (hor _ _ _).mp htarget
      exact ⟨us, rfl, he.mono (by decide), stops_succ.mpr ⟨hstop', hstop⟩⟩
  · rintro ⟨used, rfl, he, hstop⟩
    rcases Nat.eq_zero_or_pos e.level with hlevel | hlevel
    · obtain ⟨target, us, q, value, vs, rfl, htarget, hq, hvalue, hread⟩ := he.assignTo hlevel
      have hstopq : Stops 1 (q :: (vs ++ rest)) := by
        rw [stops_cons, hq]
        simp [TokenKind.joinLevel?]
      exact ⟨target, q :: (vs ++ rest), (hor _ _ _).mpr ⟨us, by simp, htarget, hstopq⟩,
        .inl ⟨q, vs ++ rest, _, rfl, if_pos hq, reads_bind.mpr ⟨value, rest,
          (hassign _ _ _ _).mpr ⟨vs, rfl, hvalue, hstop⟩, hread _ _⟩⟩⟩
    · obtain ⟨hstop', hstop⟩ := stops_succ.mp hstop
      refine ⟨e, rest, (hor _ _ _).mpr ⟨used, rfl, ?_, hstop'⟩, .inr ⟨hstop, ?_⟩⟩
      · exact ⟨he.written, hlevel, he.wellFormed, he.depth⟩
      · exact reads_succeed.mpr ⟨rfl, rfl⟩

end Inner

/-! ## Room -/

theorem readsPhrases_exprLevel (room : Nat) :
    (∀ line, ReadsPhrases 7 room (enter (exprLevel room) line (·.unary))) ∧
      ∀ line, ReadsPhrases 0 room (enter (exprLevel room) line (·.assignment)) := by
  induction room with
  | zero =>
    exact ⟨fun line => readsPhrases_enter_none line _, fun line => readsPhrases_enter_none line _⟩
  | succ room ih =>
    obtain ⟨hunary, hassign⟩ := ih
    exact ⟨fun _ => readsPhrases_unary hunary (readsPhrases_wholeExpression hassign),
      fun _ => readsPhrases_assignment hunary hassign⟩

/-- **An expression is read as it is written**, if there is room for it. -/
theorem readsPhrases_expression (room : Nat) : ReadsPhrases 0 room (expression room) :=
  readsPhrases_wholeExpression (readsPhrases_exprLevel room).2

end Grammar

end Scriptlet
