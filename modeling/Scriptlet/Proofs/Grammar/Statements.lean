import Scriptlet.Proofs.Grammar.Expressions

/-!
# Statements are read as they are written

Parsers for statements read exactly the well-formed statements that they have room for. Where a
condition is followed by a body, both end where they should because the parser of the condition
takes all it can; the same is true of an `else`.

* `Sentence`: a well-formed statement, with the tokens that write it.
* `ReadsSentences`: **what the parsers of one level read**.
* `statements_eq`: statements one after another, up to a closing brace or the end of input.
* `parse_eq_ok`: **a program is parsed exactly if its tokens write it**.
-/

namespace Scriptlet

namespace Grammar

open Scriptlet.Parser

/-- A statement that is read before these tokens has no `else` to take. -/
def NoElse (ts : List Token) : Prop := ∀ t ∈ ts.head?, t.kind ≠ .kwElse

theorem noElse_cons {t : Token} {ts : List Token} : NoElse (t :: ts) ↔ t.kind ≠ .kwElse := by
  simp [NoElse]

/-- **A sentence**: a well-formed statement within the given room, and the tokens that write it. -/
structure Sentence (room : Nat) (s : Stmt) (used : List Token) : Prop where
  written : s.Written used
  wellFormed : s.WellFormed
  depth : s.depth ≤ room

/-- Sentences that are no declarations. -/
def PlainSentence (room : Nat) (s : Stmt) (used : List Token) : Prop :=
  Sentence room s used ∧ s.isDeclaration = false

/-- A conditional without `else` is not followed by one. -/
def EndsBefore (s : Stmt) (rest : List Token) : Prop := s.endsOpen → NoElse rest

theorem Sentence.noElse {room : Nat} {s : Stmt} {us rest : List Token} (h : Sentence room s us) :
    NoElse (us ++ rest) := by
  obtain ⟨t, vs, rfl, ho, -⟩ := h.written.head
  exact noElse_cons.mpr (TokenKind.of_opensStatement ho).1

/-! ## Lists of statements -/

/-- A parser for all statements that there is room for. -/
structure ReadsDeclarations (room : Nat) (p : Parser Stmt) : Prop where
  sound {ts : List Token} {s : Stmt} {rest : List Token} (h : p.Reads ts s rest) :
    ∃ used, ts = used ++ rest ∧ Sentence room s used
  complete {s : Stmt} {used rest : List Token} (h : Sentence room s used) (hrest : NoElse rest) :
    p.Reads (used ++ rest) s rest

/-- Where a list of statements ends. -/
def EndsList (ts : List Token) : Prop := ∀ t ∈ ts.head?, endsStatements t

theorem noElse_chain {room : Nat} {ss : List Stmt} {us rest : List Token}
    (h : Chained (Sentence room) ss us) (hrest : EndsList rest) : NoElse (us ++ rest) := by
  cases h with
  | nil =>
    intro t ht hk
    have hend := hrest t ht
    rw [endsStatements, hk] at hend
    cases hend
  | cons hs =>
    rw [List.append_assoc]
    exact hs.noElse

theorem recovering_of_reads {p : Parser Stmt} {ts rest : List Token} {s : Stmt}
    (h : p.Reads ts s rest) : recovering p ts = ⟨some s, [], rest⟩ := by
  unfold recovering
  rw [h]

theorem reads_of_recovering {p : Parser Stmt} {ts : List Token}
    (h : (recovering p ts).errors = []) : ∃ s rest, p.Reads ts s rest := by
  unfold recovering at h
  unfold Reads
  generalize p.run ts = r at h ⊢
  rcases r with ⟨_ | s, errors, rest⟩
  · simp at h
  · exact ⟨s, rest, congrArg (Reply.mk _ · rest) h⟩

section Lists

variable {room : Nat} {p : Consuming Stmt} (hp : ReadsDeclarations room p.toParser)
include hp

/-- **Statements are read one after another.** -/
theorem statements_eq {ts rest : List Token} {ss : List Stmt} :
    statements p ts = ⟨ss, [], rest⟩ ↔
      ∃ used, ts = used ++ rest ∧ Chained (Sentence room) ss used ∧ EndsList rest := by
  constructor
  · intro h
    fun_induction statements p ts generalizing ss with
    | case1 =>
      cases h
      exact ⟨[], rfl, .nil, by simp [EndsList]⟩
    | case2 t ts ht =>
      cases h
      exact ⟨[], rfl, .nil, by simpa [EndsList] using ht⟩
    | case3 t ts ht r b =>
      rename_i ih
      simp only [Batch.mk.injEq, List.append_eq_nil_iff] at h
      obtain ⟨rfl, ⟨hr, hb⟩, rfl⟩ := h
      obtain ⟨s, mid, hs⟩ := reads_of_recovering hr
      obtain ⟨us, hts, hsentence⟩ := hp.sound hs
      have hrec : r = ⟨some s, [], mid⟩ := recovering_of_reads hs
      obtain ⟨vs, hmid, hchain, hend⟩ := ih (congrArg (Batch.mk b.statements · b.rest) hb)
      rw [hrec] at hmid ⊢
      refine ⟨us ++ vs, ?_, .cons hsentence hchain, hend⟩
      rw [hts, List.append_assoc, ← hmid]
  · rintro ⟨used, rfl, h, hrest⟩
    induction h with
    | nil =>
      cases rest with
      | nil => rw [List.append_nil, statements]
      | cons t ts =>
        rw [List.nil_append, statements, dif_pos (hrest t rfl)]
    | @cons s us ss vs hs hmore ih =>
      obtain ⟨t, ts, hus, ho, -⟩ := hs.written.head
      obtain ⟨-, hbrace, hinput⟩ := TokenKind.of_opensStatement ho
      have hnot : ¬ endsStatements t := by simp [endsStatements, hbrace, hinput]
      have hread := recovering_of_reads (hp.complete hs (noElse_chain hmore hrest))
      rw [List.append_assoc]
      rw [hus, List.cons_append] at hread ⊢
      rw [statements, dif_neg hnot, hread]
      simp [ih]

theorem reads_blockBody {ts rest : List Token} {ss : List Stmt} :
    (blockBody p).Reads ts ss rest ↔
      ∃ used r, ts = used ++ r :: rest ∧ Chained (Sentence room) ss used ∧
        r.kind = .rightBrace := by
  have hlist : ∀ {mid}, (statementList p).Reads ts ss mid ↔ statements p ts = ⟨ss, [], mid⟩ := by
    intro mid
    simp only [Reads, statementList]
    rcases statements p ts with ⟨ss', errors, mid'⟩
    simp
  simp only [blockBody, reads_bind, reads_expect, reads_pure]
  constructor
  · rintro ⟨_, _, hss, r, _, ⟨rfl, hr⟩, rfl, rfl⟩
    obtain ⟨used, rfl, hchain, -⟩ := (statements_eq hp).mp (hlist.mp hss)
    exact ⟨used, r, rfl, hchain, hr⟩
  · rintro ⟨used, r, rfl, hchain, hr⟩
    refine ⟨ss, r :: rest, hlist.mpr ((statements_eq hp).mpr ⟨used, rfl, hchain, ?_⟩), r, rest,
      ⟨rfl, hr⟩, rfl, rfl⟩
    simp [EndsList, endsStatements, hr]

end Lists

theorem chained_sentence_iff {room : Nat} {ss : List Stmt} {us : List Token} :
    Chained (Sentence room) ss us ↔
      Chained Stmt.Written ss us ∧ Stmt.AllWellFormed ss ∧ Stmt.bodyDepth ss ≤ room := by
  have hsentence : Sentence room = fun s us => s.Written us ∧ s.WellFormed ∧ s.depth ≤ room := by
    funext s us
    exact propext ⟨fun h => ⟨h.written, h.wellFormed, h.depth⟩, fun h => ⟨h.1, h.2.1, h.2.2⟩⟩
  rw [hsentence, chained_and, Stmt.allWellFormed_iff, Stmt.bodyDepth_le_iff]
  simp only [forall_and]

/-! ## Single statements -/

/-- **What the parsers of one level read.** -/
structure ReadsSentences (room : Nat) (i : StmtParsers) : Prop where
  expression : ReadsPhrases 0 room i.expression
  statement : i.statement.toParser.Recognizes (PlainSentence room) EndsBefore
  declaration : ReadsDeclarations room i.declaration.toParser

theorem reads_closed {room : Nat} {p : Parser Expr} (hp : ReadsPhrases 0 room p) {q : Token}
    (hq : q.kind = .semicolon) {e : Expr} {ts rest : List Token} :
    p.Reads ts e (q :: rest) ↔ ∃ us, ts = us ++ q :: rest ∧ Phrase 0 room e us := by
  refine (hp _ _ _).trans (exists_congr fun us => and_congr_right fun _ => ?_)
  exact and_iff_left (stops_of_none (by rw [hq]; rfl))

section Forms

variable {room : Nat} {i : StmtParsers} (hi : ReadsSentences room i) {ts rest : List Token}
include hi

/-- **A condition and the body behind it** are told apart, since the condition takes all it can. -/
theorem reads_guarded {c : Expr} {s : Stmt} :
    (∃ mid, i.expression.Reads ts c mid ∧ i.statement.Reads mid s rest) ↔
      ∃ us vs, ts = us ++ vs ++ rest ∧ Phrase 0 room c us ∧ Sentence room s vs ∧ s.Follows ∧
        EndsBefore s rest := by
  -- the first token of the body goes on with the condition if the body attaches
  have hstop : ∀ {vs}, s.Written vs → (Stops 0 (vs ++ rest) ↔ s.attaches = false) := by
    intro vs hs
    obtain ⟨t, vs, rfl, -, ha, -⟩ := hs.head
    rw [List.cons_append, stops_cons, ← ha]
    cases t.kind.joinLevel? <;> simp
  constructor
  · rintro ⟨mid, hc, hs⟩
    obtain ⟨us, rfl, hus, hmid⟩ := (hi.expression _ _ _).mp hc
    obtain ⟨vs, rfl, ⟨hvs, hplain⟩, hrest⟩ := (hi.statement _ _ _).mp hs
    exact ⟨us, vs, by simp, hus, hvs, ⟨hplain, (hstop hvs.written).mp hmid⟩, hrest⟩
  · rintro ⟨us, vs, rfl, hc, hs, ⟨hplain, ha⟩, hs'⟩
    refine ⟨vs ++ rest, (hi.expression _ _ _).mpr ⟨us, by simp, hc, ?_⟩,
      (hi.statement _ _ _).mpr ⟨vs, rfl, ⟨hs, hplain⟩, hs'⟩⟩
    exact (hstop hs.written).mpr ha

theorem reads_whileLoop {line : Nat} {s : Stmt} :
    (whileLoop i line).Reads ts s rest ↔
      ∃ c body us vs, ts = us ++ vs ++ rest ∧ Phrase 0 room c us ∧ Sentence room body vs ∧
        body.Follows ∧ EndsBefore body rest ∧ s = .whileLoop line c body := by
  simp only [whileLoop, reads_bind, reads_pure]
  constructor
  · rintro ⟨c, mid, hc, body, _, hbody, rfl, rfl⟩
    obtain ⟨us, vs, hts, hus, hvs, hfollows, hends⟩ := (reads_guarded hi).mp ⟨mid, hc, hbody⟩
    exact ⟨c, body, us, vs, hts, hus, hvs, hfollows, hends, rfl⟩
  · rintro ⟨c, body, us, vs, hts, hus, hvs, hfollows, hends, rfl⟩
    obtain ⟨mid, hc, hbody⟩ := (reads_guarded hi).mpr ⟨us, vs, hts, hus, hvs, hfollows, hends⟩
    exact ⟨c, mid, hc, body, rest, hbody, rfl, rfl⟩

theorem reads_forLoop {line : Nat} {s : Stmt} :
    (forLoop i line).Reads ts s rest ↔
      ∃ n k e body us vs, ts = n :: k :: (us ++ vs ++ rest) ∧ n.kind = .identifier ∧
        k.kind = .kwIn ∧ Phrase 0 room e us ∧ Sentence room body vs ∧ body.Follows ∧
        EndsBefore body rest ∧ s = .forLoop line n.lexeme e body := by
  simp only [forLoop, reads_bind, reads_name, reads_expect, reads_pure]
  constructor
  · rintro ⟨_, _, ⟨n, rfl, hn, rfl⟩, k, _, ⟨rfl, hk⟩, e, mid, he, body, _, hbody, rfl, rfl⟩
    obtain ⟨us, vs, hts, hus, hvs, hfollows, hends⟩ := (reads_guarded hi).mp ⟨mid, he, hbody⟩
    exact ⟨n, k, e, body, us, vs, by rw [hts], hn, hk, hus, hvs, hfollows, hends, rfl⟩
  · rintro ⟨n, k, e, body, us, vs, rfl, hn, hk, hus, hvs, hfollows, hends, rfl⟩
    obtain ⟨mid, he, hbody⟩ := (reads_guarded hi).mpr ⟨us, vs, rfl, hus, hvs, hfollows, hends⟩
    exact ⟨_, _, ⟨n, rfl, hn, rfl⟩, k, _, ⟨rfl, hk⟩, e, mid, he, body, rest, hbody, rfl, rfl⟩

theorem reads_conditional {line : Nat} {s : Stmt} :
    (conditional i line).Reads ts s rest ↔
      ∃ c yes us vs, Phrase 0 room c us ∧ Sentence room yes vs ∧ yes.Follows ∧
        ((ts = us ++ vs ++ rest ∧ NoElse rest ∧ s = .ifThen line c yes) ∨
          ∃ e no ws, ts = us ++ vs ++ e :: (ws ++ rest) ∧ e.kind = .kwElse ∧
            yes.endsOpen = false ∧ PlainSentence room no ws ∧ EndsBefore no rest ∧
            s = .ifElse line c yes no) := by
  simp only [conditional, reads_bind, reads_headed]
  constructor
  · rintro ⟨c, mid, hc, yes, mid', hyes, ⟨e, us', p, rfl, hp, h⟩ | ⟨hnone, h⟩⟩
    · split_ifs at hp with he
      cases hp
      obtain ⟨no, _, hno, hs⟩ := reads_bind.mp h
      obtain ⟨rfl, rfl⟩ := reads_pure.mp hs
      obtain ⟨us, vs, hts, hus, hvs, hfollows, hends⟩ := (reads_guarded hi).mp ⟨mid, hc, hyes⟩
      obtain ⟨ws, rfl, hws, hrest⟩ := (hi.statement _ _ _).mp hno
      refine ⟨c, yes, us, vs, hus, hvs, hfollows, .inr ⟨e, no, ws, hts, he, ?_, hws, hrest, rfl⟩⟩
      by_contra hopen
      exact noElse_cons.mp (hends (by simpa using hopen)) he
    · obtain ⟨rfl, rfl⟩ := reads_succeed.mp h
      obtain ⟨us, vs, hts, hus, hvs, hfollows, hends⟩ := (reads_guarded hi).mp ⟨mid, hc, hyes⟩
      refine ⟨c, yes, us, vs, hus, hvs, hfollows, .inl ⟨hts, fun t ht hk => ?_, rfl⟩⟩
      simpa [hk] using hnone t ht
  · rintro ⟨c, yes, us, vs, hus, hvs, hfollows,
      ⟨hts, hrest, rfl⟩ | ⟨e, no, ws, hts, he, hopen, hws, hrest, rfl⟩⟩
    · obtain ⟨mid, hc, hyes⟩ :=
        (reads_guarded hi).mpr ⟨us, vs, hts, hus, hvs, hfollows, fun _ => hrest⟩
      refine ⟨c, mid, hc, yes, rest, hyes, .inr ⟨fun t ht => if_neg (hrest t ht), ?_⟩⟩
      exact reads_succeed.mpr ⟨rfl, rfl⟩
    · obtain ⟨mid, hc, hyes⟩ :=
        (reads_guarded hi).mpr ⟨us, vs, hts, hus, hvs, hfollows, fun h => by simp [hopen] at h⟩
      refine ⟨c, mid, hc, yes, _, hyes, .inl ⟨e, ws ++ rest, _, rfl, if_pos he, ?_⟩⟩
      exact reads_bind.mpr ⟨no, rest, (hi.statement _ _ _).mpr ⟨ws, rfl, hws, hrest⟩,
        reads_pure.mpr ⟨rfl, rfl⟩⟩

theorem reads_expressionStatement {line : Nat} {s : Stmt} :
    (expressionStatement i line).Reads ts s rest ↔
      ∃ e us q, ts = us ++ q :: rest ∧ Phrase 0 room e us ∧ q.kind = .semicolon ∧
        s = .expression line e := by
  simp only [expressionStatement, reads_andThen, reads_expect, reads_succeed]
  constructor
  · rintro ⟨e, mid, he, q, _, ⟨rfl, hq⟩, rfl, rfl⟩
    obtain ⟨us, hts, hus⟩ := (reads_closed hi.expression hq).mp he
    exact ⟨e, us, q, hts, hus, hq, rfl⟩
  · rintro ⟨e, us, q, hts, hus, hq, rfl⟩
    exact ⟨e, _, (reads_closed hi.expression hq).mpr ⟨us, hts, hus⟩, q, rest, ⟨rfl, hq⟩, rfl, rfl⟩

theorem reads_giveBack {line : Nat} {s : Stmt} :
    (giveBack i line).Reads ts s rest ↔
      (∃ q, ts = q :: rest ∧ q.kind = .semicolon ∧ s = .giveBack line none) ∨
        ∃ e us q, ts = us ++ q :: rest ∧ Phrase 0 room e us ∧ q.kind = .semicolon ∧
          s = .giveBack line (some e) := by
  simp only [giveBack, reads_headed, reads_bind, reads_expect, reads_pure]
  constructor
  · rintro (⟨q, us, p, rfl, hp, h⟩ | ⟨-, e, mid, he, q, _, ⟨rfl, hq⟩, rfl, rfl⟩)
    · split_ifs at hp with hq
      cases hp
      obtain ⟨rfl, rfl⟩ := reads_succeed.mp h
      exact .inl ⟨q, rfl, hq, rfl⟩
    · obtain ⟨us, hts, hus⟩ := (reads_closed hi.expression hq).mp he
      exact .inr ⟨e, us, q, hts, hus, hq, rfl⟩
  · rintro (⟨q, rfl, hq, rfl⟩ | ⟨e, us, q, hts, hus, hq, rfl⟩)
    · exact .inl ⟨q, rest, _, rfl, if_pos hq, reads_succeed.mpr ⟨rfl, rfl⟩⟩
    · refine .inr ⟨?_, e, _, (reads_closed hi.expression hq).mpr ⟨us, hts, hus⟩, q, rest, ⟨rfl, hq⟩,
        rfl, rfl⟩
      -- the value does not start with a semicolon
      obtain ⟨t, vs, rfl, hs, -⟩ := hus.written.head
      obtain ⟨-, -, -, -, -, hsemicolon⟩ := TokenKind.of_startsExpression hs
      simp [hts, hsemicolon]

end Forms

/-! ## All statements of a level -/

theorem keywordStatement?_eq_none {i : StmtParsers} {t : Token} :
    keywordStatement? i t = none ↔ t.kind ≠ .leftBrace ∧ t.kind ≠ .kwIf ∧ t.kind ≠ .kwWhile ∧
      t.kind ≠ .kwFor ∧ t.kind ≠ .kwReturn := by
  unfold keywordStatement?
  cases t.kind <;> simp

theorem keywordStatement?_cases {i : StmtParsers} {t : Token} {p : Parser Stmt}
    (h : keywordStatement? i t = some p) :
    (t.kind = .leftBrace ∧ p = do
        let body ← blockBody i.declaration
        return .block t.line body) ∨
      (t.kind = .kwIf ∧ p = conditional i t.line) ∨
      (t.kind = .kwWhile ∧ p = whileLoop i t.line) ∨
      (t.kind = .kwFor ∧ p = forLoop i t.line) ∨
      (t.kind = .kwReturn ∧ p = giveBack i t.line) := by
  unfold keywordStatement? at h
  split at h <;> simp_all

section Level

variable {room : Nat} {i : StmtParsers} (hi : ReadsSentences room i)
include hi

/-- **What is read is a sentence.** -/
theorem plainSentence_of_reads {t : Token} {ts rest : List Token} {s : Stmt}
    (h : (headed (keywordStatement? i) (expressionStatement i t.line)).Reads (t :: ts) s rest) :
    ∃ used, t :: ts = used ++ rest ∧ PlainSentence (room + 1) s used ∧ EndsBefore s rest := by
  rcases reads_headed.mp h with ⟨_, _, p, ⟨⟩, hp, h⟩ | ⟨-, h⟩
  · rcases keywordStatement?_cases hp with ⟨ht, rfl⟩ | ⟨ht, rfl⟩ | ⟨ht, rfl⟩ | ⟨ht, rfl⟩ | ⟨ht, rfl⟩
    · simp only [reads_bind, reads_blockBody hi.declaration, reads_pure] at h
      obtain ⟨ss, _, ⟨us, r, rfl, hss, hr⟩, rfl, rfl⟩ := h
      obtain ⟨hwritten, hwf, hdepth⟩ := chained_sentence_iff.mp hss
      refine ⟨t :: us ++ [r], by simp, ⟨⟨.block ht hwritten hr, hwf, ?_⟩, rfl⟩, nofun⟩
      exact Nat.succ_le_succ hdepth
    · obtain ⟨c, yes, us, vs, hus, hvs, hfollows,
        ⟨rfl, hrest, rfl⟩ | ⟨e, no, ws, rfl, he, hopen, ⟨hws, hplain⟩, hrest, rfl⟩⟩ :=
        (reads_conditional hi).mp h
      · refine ⟨t :: us ++ vs, by simp, ⟨⟨.ifThen ht hus.written hvs.written,
          ⟨hus.wellFormed, hfollows, hvs.wellFormed⟩, ?_⟩, rfl⟩, fun _ => hrest⟩
        exact Nat.succ_le_succ (Nat.max_le.mpr ⟨hus.depth, hvs.depth⟩)
      · refine ⟨t :: us ++ vs ++ e :: ws, by simp, ⟨⟨.ifElse ht hus.written hvs.written he
          hws.written, ⟨hus.wellFormed, hfollows, hvs.wellFormed, hopen, hplain, hws.wellFormed⟩,
          ?_⟩, rfl⟩, hrest⟩
        exact Nat.succ_le_succ (Nat.max_le.mpr ⟨hus.depth, Nat.max_le.mpr ⟨hvs.depth, hws.depth⟩⟩)
    · obtain ⟨c, body, us, vs, rfl, hus, hvs, hfollows, hends, rfl⟩ := (reads_whileLoop hi).mp h
      refine ⟨t :: us ++ vs, by simp, ⟨⟨.whileLoop ht hus.written hvs.written,
        ⟨hus.wellFormed, hfollows, hvs.wellFormed⟩, ?_⟩, rfl⟩, hends⟩
      exact Nat.succ_le_succ (Nat.max_le.mpr ⟨hus.depth, hvs.depth⟩)
    · obtain ⟨n, k, e, body, us, vs, rfl, hn, hk, hus, hvs, hfollows, hends, rfl⟩ :=
        (reads_forLoop hi).mp h
      refine ⟨t :: n :: k :: us ++ vs, by simp, ⟨⟨.forLoop ht hn hk hus.written hvs.written,
        ⟨hus.wellFormed, hfollows, hvs.wellFormed⟩, ?_⟩, rfl⟩, hends⟩
      exact Nat.succ_le_succ (Nat.max_le.mpr ⟨hus.depth, hvs.depth⟩)
    · rcases (reads_giveBack hi).mp h with ⟨q, rfl, hq, rfl⟩ | ⟨e, us, q, rfl, hus, hq, rfl⟩
      · exact ⟨[t, q], rfl, ⟨⟨.giveBackNothing ht hq, trivial, Nat.succ_pos room⟩, rfl⟩, nofun⟩
      · exact ⟨t :: us ++ [q], by simp, ⟨⟨.giveBack ht hus.written hq, hus.wellFormed,
          Nat.succ_le_succ hus.depth⟩, rfl⟩, nofun⟩
  · obtain ⟨e, us, q, hts, hus, hq, rfl⟩ := (reads_expressionStatement hi).mp h
    obtain ⟨_, us, rfl, -⟩ := hus.written.head
    cases hts
    exact ⟨t :: us ++ [q], by simp, ⟨⟨.expression hus.written hq, hus.wellFormed,
      Nat.succ_le_succ hus.depth⟩, rfl⟩, nofun⟩

/-- **A sentence is read.** -/
theorem reads_of_plainSentence {t : Token} {us rest : List Token} {s : Stmt}
    (h : PlainSentence (room + 1) s (t :: us)) (hends : EndsBefore s rest) :
    (headed (keywordStatement? i) (expressionStatement i t.line)).Reads (t :: us ++ rest) s
      rest := by
  obtain ⟨⟨hwritten, hwf, hdepth⟩, hplain⟩ := h
  -- a statement that starts with a keyword or a brace is read as the token says
  have hkeyword : ∀ {p ts}, keywordStatement? i t = some p → us ++ rest = ts → p.Reads ts s rest →
      (headed (keywordStatement? i) (expressionStatement i t.line)).Reads (t :: us ++ rest) s
        rest := by
    rintro p ts hp rfl h
    exact reads_headed.mpr (.inl ⟨t, _, p, rfl, hp, h⟩)
  generalize hts : t :: us = ts at hwritten
  cases hwritten with
  | @block l r ss vs hl hss hr =>
    obtain ⟨rfl, rfl⟩ := List.cons.inj hts
    have hchain := chained_sentence_iff.mpr ⟨hss, hwf, Nat.le_of_succ_le_succ hdepth⟩
    refine hkeyword (by unfold keywordStatement?; rw [hl]) rfl ?_
    simp only [reads_bind, reads_blockBody hi.declaration, reads_pure]
    exact ⟨ss, rest, ⟨vs, r, by simp, hchain, hr⟩, rfl, rfl⟩
  | @expression u q e vs he hq =>
    obtain ⟨rfl, rfl⟩ := List.cons.inj hts
    obtain ⟨_, _, ⟨⟩, hs, -⟩ := he.head
    have hnone : keywordStatement? i t = none := by
      rw [keywordStatement?_eq_none]
      revert hs
      cases t.kind <;> decide
    refine reads_headed.mpr (.inr ⟨by simpa using hnone, ?_⟩)
    refine (reads_expressionStatement hi).mpr ⟨e, t :: vs, q, by simp, ?_, hq, rfl⟩
    exact ⟨he, Nat.zero_le _, hwf, Nat.le_of_succ_le_succ hdepth⟩
  | function | shortFunction | declareNull | declare => cases hplain
  | @ifThen _ c yes vs ws ht hc hyes =>
    obtain ⟨rfl, rfl⟩ := List.cons.inj hts
    obtain ⟨hwfc, hfollows, hwfy⟩ := hwf
    obtain ⟨hdepthc, hdepthy⟩ := Nat.max_le.mp (Nat.le_of_succ_le_succ hdepth)
    refine hkeyword (by unfold keywordStatement?; rw [ht]) rfl ?_
    exact (reads_conditional hi).mpr ⟨c, yes, vs, ws, ⟨hc, Nat.zero_le _, hwfc, hdepthc⟩,
      ⟨hyes, hwfy, hdepthy⟩, hfollows, .inl ⟨rfl, hends rfl, rfl⟩⟩
  | @ifElse _ e c yes no vs ws xs ht hc hyes he hno =>
    obtain ⟨rfl, rfl⟩ := List.cons.inj hts
    obtain ⟨hwfc, hfollows, hwfy, hopen, hplainn, hwfn⟩ := hwf
    obtain ⟨hdepthc, hdepth⟩ := Nat.max_le.mp (Nat.le_of_succ_le_succ hdepth)
    obtain ⟨hdepthy, hdepthn⟩ := Nat.max_le.mp hdepth
    refine hkeyword (by unfold keywordStatement?; rw [ht]) rfl ?_
    exact (reads_conditional hi).mpr ⟨c, yes, vs, ws, ⟨hc, Nat.zero_le _, hwfc, hdepthc⟩,
      ⟨hyes, hwfy, hdepthy⟩, hfollows, .inr ⟨e, no, xs, by simp, he, hopen,
        ⟨⟨hno, hwfn, hdepthn⟩, hplainn⟩, hends, rfl⟩⟩
  | @giveBackNothing _ q ht hq =>
    obtain ⟨rfl, rfl⟩ := List.cons.inj hts
    refine hkeyword (by unfold keywordStatement?; rw [ht]) rfl ?_
    exact (reads_giveBack hi).mpr (.inl ⟨q, rfl, hq, rfl⟩)
  | @giveBack _ q e vs ht he hq =>
    obtain ⟨rfl, rfl⟩ := List.cons.inj hts
    refine hkeyword (by unfold keywordStatement?; rw [ht]) rfl ?_
    exact (reads_giveBack hi).mpr (.inr ⟨e, vs, q, by simp,
      ⟨he, Nat.zero_le _, hwf, Nat.le_of_succ_le_succ hdepth⟩, hq, rfl⟩)
  | @whileLoop _ c body vs ws ht hc hbody =>
    obtain ⟨rfl, rfl⟩ := List.cons.inj hts
    obtain ⟨hwfc, hfollows, hwfb⟩ := hwf
    obtain ⟨hdepthc, hdepthb⟩ := Nat.max_le.mp (Nat.le_of_succ_le_succ hdepth)
    refine hkeyword (by unfold keywordStatement?; rw [ht]) rfl ?_
    exact (reads_whileLoop hi).mpr ⟨c, body, vs, ws, rfl, ⟨hc, Nat.zero_le _, hwfc, hdepthc⟩,
      ⟨hbody, hwfb, hdepthb⟩, hfollows, hends, rfl⟩
  | @forLoop _ n k e body vs ws ht hn hk he hbody =>
    obtain ⟨rfl, rfl⟩ := List.cons.inj hts
    obtain ⟨hwfe, hfollows, hwfb⟩ := hwf
    obtain ⟨hdepthe, hdepthb⟩ := Nat.max_le.mp (Nat.le_of_succ_le_succ hdepth)
    refine hkeyword (by unfold keywordStatement?; rw [ht]) rfl ?_
    exact (reads_forLoop hi).mpr ⟨n, k, e, body, vs, ws, by simp, hn, hk,
      ⟨he, Nat.zero_le _, hwfe, hdepthe⟩, ⟨hbody, hwfb, hdepthb⟩, hfollows, hends, rfl⟩

end Level

theorem recognizes_statementWith {room : Nat} {i : StmtParsers} (hi : ReadsSentences room i) :
    (statementWith (some i)).toParser.Recognizes (PlainSentence (room + 1)) EndsBefore := by
  intro ts s rest
  cases ts with
  | nil =>
    constructor
    · intro h
      cases h
    · rintro ⟨used, hused, ⟨hs, -⟩, -⟩
      obtain ⟨t, vs, rfl, -⟩ := hs.written.head
      cases hused
  | cons t ts =>
    constructor
    · exact plainSentence_of_reads hi
    · rintro ⟨used, hts, hs, hends⟩
      obtain ⟨u, us, rfl, -⟩ := hs.1.written.head
      obtain ⟨rfl, rfl⟩ := List.cons.inj hts
      exact reads_of_plainSentence hi hs hends

theorem recognizes_statementWith_none :
    (statementWith none).toParser.Recognizes (PlainSentence 0) EndsBefore := by
  intro ts s rest
  constructor
  · intro h
    cases ts with
    | nil => cases h
    | cons t ts => exact absurd h not_reads_fail
  · rintro ⟨used, -, ⟨hs, hplain⟩, -⟩
    have hdepth := hs.depth
    cases s with
    | giveBack line value => cases value <;> simp [Stmt.depth] at hdepth
    | function | declare => cases hplain
    | _ => simp [Stmt.depth] at hdepth

/-! ## Declarations -/

theorem reads_parameters {params : List String} {ts rest : List Token} :
    (commaList (name .parameterName)).Reads ts params rest ↔
      ∃ used t, ts = used ++ t :: rest ∧ Listed NameWritten params used ∧
        t.kind = .rightParen := by
  have hname : (name .parameterName).Recognizes NameWritten fun _ _ => True := by
    intro ts n rest
    simp only [reads_name, NameWritten, and_true]
    constructor
    · rintro ⟨t, rfl, ht, rfl⟩
      exact ⟨[t], rfl, t, rfl, ht, rfl⟩
    · rintro ⟨_, rfl, t, rfl, ht, rfl⟩
      exact ⟨t, rfl, ht, rfl⟩
  refine reads_commaList hname (fun _ _ _ _ => trivial) fun n us hn => ?_
  obtain ⟨t, rfl, ht, -⟩ := hn
  exact ⟨t, [], rfl, by simp [ht]⟩

theorem reads_variableDeclaration {room line : Nat} {p : Parser Expr}
    (hp : ReadsPhrases 0 room p) {s : Stmt} {ts rest : List Token} :
    (variableDeclaration p line).Reads ts s rest ↔
      ∃ n q, n.kind = .identifier ∧ q.kind = .semicolon ∧
        ((ts = n :: q :: rest ∧ s = .declare line n.lexeme none) ∨
          ∃ m e us, ts = n :: m :: (us ++ q :: rest) ∧ m.kind = .equal ∧ Phrase 0 room e us ∧
            s = .declare line n.lexeme (some e)) := by
  simp only [variableDeclaration, reads_bind, reads_name, reads_headed, reads_expect, reads_pure]
  constructor
  · rintro ⟨_, _, ⟨n, rfl, hn, rfl⟩, initial, mid, ⟨m, us, p', rfl, hp', h⟩ | ⟨-, h⟩, q, _,
      ⟨rfl, hq⟩, rfl, rfl⟩
    · split_ifs at hp' with hm
      cases hp'
      obtain ⟨e, _, he, h⟩ := reads_bind.mp h
      obtain ⟨rfl, rfl⟩ := reads_pure.mp h
      obtain ⟨vs, rfl, hvs⟩ := (reads_closed hp hq).mp he
      exact ⟨n, q, hn, hq, .inr ⟨m, e, vs, rfl, hm, hvs, rfl⟩⟩
    · obtain ⟨rfl, rfl⟩ := reads_succeed.mp h
      exact ⟨n, q, hn, hq, .inl ⟨rfl, rfl⟩⟩
  · rintro ⟨n, q, hn, hq, ⟨rfl, rfl⟩ | ⟨m, e, us, rfl, hm, hus, rfl⟩⟩
    · refine ⟨_, _, ⟨n, rfl, hn, rfl⟩, none, q :: rest, .inr ⟨?_, reads_succeed.mpr ⟨rfl, rfl⟩⟩,
        q, rest, ⟨rfl, hq⟩, rfl, rfl⟩
      simp [hq]
    · refine ⟨_, _, ⟨n, rfl, hn, rfl⟩, some e, q :: rest, .inl ⟨m, _, _, rfl, if_pos hm, ?_⟩, q,
        rest, ⟨rfl, hq⟩, rfl, rfl⟩
      exact reads_bind.mpr ⟨e, _, (reads_closed hp hq).mpr ⟨us, rfl, hus⟩,
        reads_pure.mpr ⟨rfl, rfl⟩⟩

/-- The body of a function, with or without braces. -/
def FunctionBody (room : Nat) (body : List Stmt) (ts rest : List Token) : Prop :=
  (∃ b us c, ts = b :: (us ++ c :: rest) ∧ b.kind = .leftBrace ∧
      Chained (Sentence room) body us ∧ c.kind = .rightBrace) ∨
    ∃ s us, ts = us ++ rest ∧ PlainSentence room s us ∧ s.isBlock = false ∧ EndsBefore s rest ∧
      body = [s]

theorem reads_functionBody {room : Nat} {i : StmtParsers} (hi : ReadsSentences room i)
    {body : List Stmt} {ts rest : List Token} :
    (headed (fun t => if t.kind = .leftBrace then some (blockBody i.declaration) else none)
        (do let s ← i.statement.toParser; return [s])).Reads ts body rest ↔
      FunctionBody room body ts rest := by
  simp only [reads_headed, reads_bind, reads_pure]
  constructor
  · rintro (⟨b, us, p, rfl, hp, h⟩ | ⟨hnone, s, _, hs, rfl, rfl⟩)
    · split_ifs at hp with hb
      cases hp
      obtain ⟨vs, c, rfl, hchain, hc⟩ := (reads_blockBody hi.declaration).mp h
      exact .inl ⟨b, vs, c, rfl, hb, hchain, hc⟩
    · obtain ⟨us, rfl, hus, hends⟩ := (hi.statement _ _ _).mp hs
      obtain ⟨t, vs, rfl, -, -, -, hbrace⟩ := hus.1.written.head
      refine .inr ⟨s, t :: vs, rfl, hus, ?_, hends, rfl⟩
      have hnot : t.kind ≠ .leftBrace := by simpa using hnone t rfl
      simpa [hnot] using hbrace
  · rintro (⟨b, us, c, rfl, hb, hchain, hc⟩ | ⟨s, us, rfl, hus, hblock, hends, rfl⟩)
    · exact .inl ⟨b, _, _, rfl, if_pos hb,
        (reads_blockBody hi.declaration).mpr ⟨us, c, rfl, hchain, hc⟩⟩
    · refine .inr ⟨?_, s, rest, (hi.statement _ _ _).mpr ⟨us, rfl, hus, hends⟩, rfl, rfl⟩
      obtain ⟨t, vs, rfl, -, -, -, hbrace⟩ := hus.1.written.head
      simpa [hblock] using hbrace

theorem reads_function {room : Nat} {i : StmtParsers} (hi : ReadsSentences room i) {line : Nat}
    {s : Stmt} {ts rest : List Token} :
    (function (some i) line).Reads ts s rest ↔
      ∃ n l r params us body vs, ts = n :: l :: (us ++ r :: vs) ∧ n.kind = .identifier ∧
        l.kind = .leftParen ∧ Listed NameWritten params us ∧ r.kind = .rightParen ∧
        params.length ≤ maxParameters ∧ FunctionBody room body vs rest ∧
        s = .function line n.lexeme params body := by
  simp only [function, reads_bind, reads_name, reads_expect, reads_parameters]
  constructor
  · rintro ⟨_, _, ⟨n, rfl, hn, rfl⟩, l, _, ⟨rfl, hl⟩, params, vs, ⟨us, r, rfl, hparams, hr⟩, h⟩
    split_ifs at h with hmany
    · exact absurd h not_reads_fail
    · obtain ⟨body, _, hbody, h⟩ := reads_bind.mp h
      obtain ⟨rfl, rfl⟩ := reads_pure.mp h
      exact ⟨n, l, r, params, us, body, vs, rfl, hn, hl, hparams, hr, Nat.not_lt.mp hmany,
        (reads_functionBody hi).mp hbody, rfl⟩
  · rintro ⟨n, l, r, params, us, body, vs, rfl, hn, hl, hparams, hr, hmany, hbody, rfl⟩
    refine ⟨_, _, ⟨n, rfl, hn, rfl⟩, l, _, ⟨rfl, hl⟩, params, vs, ⟨us, r, rfl, hparams, hr⟩, ?_⟩
    rw [if_neg (Nat.not_lt.mpr hmany)]
    exact reads_bind.mpr ⟨body, rest, (reads_functionBody hi).mpr hbody,
      reads_pure.mpr ⟨rfl, rfl⟩⟩

theorem not_reads_function {line : Nat} {s : Stmt} {ts rest : List Token} :
    ¬ (function none line).Reads ts s rest := by
  simp only [function, reads_bind]
  rintro ⟨_, _, _, _, _, _, params, _, _, h⟩
  split_ifs at h <;> exact not_reads_fail h

/-! ## Room -/

/-- What `inner` reads is one level less than `room`. -/
def InnerReads (room : Nat) (inner : Option StmtParsers) : Prop :=
  match inner with
  | none => room = 0
  | some i => ∃ r, room = r + 1 ∧ ReadsSentences r i

theorem declaration_choice {p : Parser Expr} {inner : Option StmtParsers} {t : Token}
    {q : Parser Stmt} :
    (match t.kind with
      | .kwFun => some (function inner t.line)
      | .kwVar => some (variableDeclaration p t.line)
      | _ => none) = some q ↔
    (t.kind = .kwFun ∧ q = function inner t.line) ∨
      (t.kind = .kwVar ∧ q = variableDeclaration p t.line) := by
  cases t.kind <;> simp [eq_comm]

section Declarations

variable {room : Nat} {inner : Option StmtParsers} (hinner : InnerReads room inner)
  {p : Parser Expr} (hp : ReadsPhrases 0 room p)
  (hstatement : (statementWith inner).toParser.Recognizes (PlainSentence room) EndsBefore)
include hinner hp hstatement

theorem sentence_of_reads {ts rest : List Token} {s : Stmt}
    (h : (declarationWith p inner).toParser.Reads ts s rest) :
    ∃ used, ts = used ++ rest ∧ Sentence room s used := by
  rcases reads_headed.mp h with ⟨t, us, q, rfl, hq, h⟩ | ⟨-, h⟩
  · rcases declaration_choice.mp hq with ⟨ht, rfl⟩ | ⟨ht, rfl⟩
    · cases inner with
      | none => exact absurd h not_reads_function
      | some i =>
        obtain ⟨room, rfl, hi⟩ := hinner
        obtain ⟨n, l, r, params, us, body, vs, rfl, hn, hl, hparams, hr, hmany, hbody, rfl⟩ :=
          (reads_function hi).mp h
        rcases hbody with ⟨b, ws, c, rfl, hb, hchain, hc⟩ |
          ⟨s, ws, rfl, ⟨hs, hplain⟩, hblock, -, rfl⟩
        · obtain ⟨hwritten, hwf, hdepth⟩ := chained_sentence_iff.mp hchain
          exact ⟨t :: n :: l :: us ++ r :: b :: ws ++ [c], by simp,
            .function ht hn hl hparams hr hb hwritten hc, ⟨hmany, hwf⟩, Nat.succ_le_succ hdepth⟩
        · refine ⟨t :: n :: l :: us ++ r :: ws, by simp,
            .shortFunction ht hn hl hparams hr hs.written ⟨hplain, hblock⟩,
            ⟨hmany, hs.wellFormed, trivial⟩, Nat.succ_le_succ ?_⟩
          simpa [Stmt.bodyDepth] using hs.depth
    · obtain ⟨n, q, hn, hq, ⟨rfl, rfl⟩ | ⟨m, e, us, rfl, hm, hus, rfl⟩⟩ :=
        (reads_variableDeclaration hp).mp h
      · exact ⟨[t, n, q], rfl, .declareNull ht hn hq, trivial, Nat.zero_le room⟩
      · exact ⟨t :: n :: m :: us ++ [q], by simp, .declare ht hn hm hus.written hq,
          hus.wellFormed, hus.depth⟩
  · obtain ⟨used, hts, ⟨hs, -⟩, -⟩ := (hstatement _ _ _).mp h
    exact ⟨used, hts, hs⟩

omit hp hstatement in
/-- A function takes one level for its body, so that there are parsers for it. -/
theorem exists_inner {n : Nat} (h : n + 1 ≤ room) :
    ∃ r i, n ≤ r ∧ inner = some i ∧ ReadsSentences r i := by
  cases inner with
  | none =>
    rw [hinner] at h
    cases h
  | some i =>
    obtain ⟨r, rfl, hi⟩ := hinner
    exact ⟨r, i, Nat.le_of_succ_le_succ h, rfl, hi⟩

theorem reads_of_sentence {s : Stmt} {used rest : List Token} (h : Sentence room s used)
    (hrest : NoElse rest) : (declarationWith p inner).toParser.Reads (used ++ rest) s rest := by
  obtain ⟨hwritten, hwf, hdepth⟩ := h
  cases hplain : s.isDeclaration with
  | false =>
    obtain ⟨t, us, rfl, -, -, hdeclaration, -⟩ := hwritten.head
    refine reads_headed.mpr (.inr ⟨?_, (hstatement _ _ _).mpr
      ⟨t :: us, rfl, ⟨⟨hwritten, hwf, hdepth⟩, hplain⟩, fun _ => hrest⟩⟩)
    rw [hplain] at hdeclaration
    simp only [Bool.false_eq_true, iff_false, not_or] at hdeclaration
    rintro _ ⟨⟩
    split
    · exact absurd ‹_› hdeclaration.1
    · exact absurd ‹_› hdeclaration.2
    · rfl
  | true =>
    cases hwritten with
    | @function f n l r b c params body us vs hf hn hl hparams hr hb hbody hc =>
      obtain ⟨room, i, hle, rfl, hi⟩ := exists_inner hinner hdepth
      refine reads_headed.mpr (.inl ⟨f, _, _, rfl, declaration_choice.mpr (.inl ⟨hf, rfl⟩), ?_⟩)
      have hchain := chained_sentence_iff.mpr ⟨hbody, hwf.2, hle⟩
      exact (reads_function hi).mpr ⟨n, l, r, params, us, body, b :: (vs ++ c :: rest), by simp, hn,
        hl, hparams, hr, hwf.1, .inl ⟨b, vs, c, rfl, hb, hchain, hc⟩, rfl⟩
    | @shortFunction f n l r params s us vs hf hn hl hparams hr hs hsingle =>
      obtain ⟨room, i, hle, rfl, hi⟩ := exists_inner hinner hdepth
      have hsentence : Sentence room s vs :=
        ⟨hs, hwf.2.1, by simpa [Stmt.bodyDepth] using hle⟩
      refine reads_headed.mpr (.inl ⟨f, _, _, rfl, declaration_choice.mpr (.inl ⟨hf, rfl⟩), ?_⟩)
      exact (reads_function hi).mpr ⟨n, l, r, params, us, [s], vs ++ rest, by simp, hn, hl, hparams,
        hr, hwf.1, .inr ⟨s, vs, rfl, ⟨hsentence, hsingle.1⟩, hsingle.2, fun _ => hrest, rfl⟩, rfl⟩
    | @declareNull t n q ht hn hq =>
      refine reads_headed.mpr (.inl ⟨t, _, _, rfl, declaration_choice.mpr (.inr ⟨ht, rfl⟩), ?_⟩)
      exact (reads_variableDeclaration hp).mpr ⟨n, q, hn, hq, .inl ⟨rfl, rfl⟩⟩
    | @declare t n m q e us ht hn hm he hq =>
      refine reads_headed.mpr (.inl ⟨t, _, _, rfl, declaration_choice.mpr (.inr ⟨ht, rfl⟩), ?_⟩)
      exact (reads_variableDeclaration hp).mpr ⟨n, q, hn, hq, .inr ⟨m, e, us, by simp, hm,
        ⟨he, Nat.zero_le _, hwf, hdepth⟩, rfl⟩⟩
    | _ => cases hplain

end Declarations

/-- **The parsers with a given room read the sentences that there is room for.** -/
theorem readsSentences (room : Nat) :
    ReadsSentences room ⟨expression room, statement room, declaration room⟩ := by
  induction room with
  | zero =>
    have hinner : InnerReads 0 none := rfl
    have hstatement := recognizes_statementWith_none
    exact ⟨readsPhrases_expression 0, hstatement,
      sentence_of_reads hinner (readsPhrases_expression 0) hstatement,
      reads_of_sentence hinner (readsPhrases_expression 0) hstatement⟩
  | succ room ih =>
    have hinner : InnerReads (room + 1) (stmtLevel (room + 1)) := ⟨room, rfl, ih⟩
    have hstatement := recognizes_statementWith ih
    exact ⟨readsPhrases_expression _, hstatement,
      sentence_of_reads hinner (readsPhrases_expression _) hstatement,
      reads_of_sentence hinner (readsPhrases_expression _) hstatement⟩

/-! ## Programs -/

/-- A program without errors is a list of statements that no brace ends. -/
theorem program_eq {p : Consuming Stmt} {ts rest : List Token} {ss : List Stmt} :
    program p ts = ⟨ss, [], rest⟩ ↔
      statements p ts = ⟨ss, [], rest⟩ ∧ ∀ t ∈ rest.head?, t.kind ≠ .rightBrace := by
  rw [program]
  split
  · rename_i t us hrest
    split_ifs with hbrace
    · constructor
      · intro h
        simp at h
      · rintro ⟨h, hno⟩
        obtain rfl : rest = t :: us := by rwa [h] at hrest
        exact absurd hbrace (hno t rfl)
    · refine (and_iff_left_of_imp fun h => ?_).symm
      obtain rfl : rest = t :: us := by rwa [h] at hrest
      simpa using hbrace
  · rename_i hrest
    refine (and_iff_left_of_imp fun h => ?_).symm
    obtain rfl : rest = [] := by rwa [h] at hrest
    simp

/-- **A program is parsed exactly if its tokens write it**, it is well formed and within the
limits. -/
theorem parse_eq_ok {ts : List Token} {ss : List Stmt} :
    parse ts = .ok ss ↔
      ∃ used rest, ts = used ++ rest ∧ Chained (Sentence maxNesting) ss used ∧
        ∀ t ∈ rest.head?, t.kind = .endOfInput := by
  have hparse : parse ts = .ok ss ↔
      ∃ rest, program (declaration maxNesting) ts = ⟨ss, [], rest⟩ := by
    unfold parse
    rcases program (declaration maxNesting) ts with ⟨ss', _ | ⟨e, es⟩, rest⟩ <;> simp
  have hends : ∀ t : Token, endsStatements t ∧ t.kind ≠ .rightBrace ↔ t.kind = .endOfInput := by
    intro t
    unfold endsStatements
    cases t.kind <;> simp
  simp only [hparse, program_eq, statements_eq (readsSentences maxNesting).declaration, ← hends,
    EndsList]
  constructor
  · rintro ⟨rest, ⟨used, hts, hchain, hend⟩, hno⟩
    exact ⟨used, rest, hts, hchain, fun t ht => ⟨hend t ht, hno t ht⟩⟩
  · rintro ⟨used, rest, hts, hchain, hend⟩
    exact ⟨rest, ⟨used, hts, hchain, fun t ht => (hend t ht).1⟩, fun t ht => (hend t ht).2⟩

end Grammar

end Scriptlet
