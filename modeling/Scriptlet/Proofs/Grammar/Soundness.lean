import Scriptlet.Proofs.Grammar.Statements
import Scriptlet.Proofs.Token.Scanning

/-!
# Parsed programs

What is parsed from a text is written by all of its tokens, each used once and in its place: the
end of input closes every text and stands nowhere else, and no tree is written with it.

* `Chained.ne_endOfInput`: no program is written with the end of input.
* `scanFrom_eq_concat`: the tokens of a text, and the constants they carry.
* `parse_derivation`: **the tokens of a text write the program that is parsed from it**, and it
  stays within the levels and limits of the grammar.
-/

namespace Scriptlet

/-! ## The end of input -/

section Lists

variable {α : Type} {Item : α → List Token → Prop} {P : Token → Prop} {as : List α}
  {us : List Token}

theorem Commas.forall_token (h : Commas Item as us) (hcomma : ∀ t : Token, t.kind = .comma → P t)
    (hitem : ∀ a ∈ as, ∀ us, Item a us → ∀ t ∈ us, P t) : ∀ t ∈ us, P t := by
  induction h with
  | nil => exact List.forall_mem_nil P
  | cons ht ha _ ih =>
    obtain ⟨hfirst, hmore⟩ := List.forall_mem_cons.mp hitem
    rw [List.cons_append, List.forall_mem_cons, List.forall_mem_append]
    exact ⟨hcomma _ ht, hfirst _ ha, ih hmore⟩

theorem Listed.forall_token (h : Listed Item as us) (hcomma : ∀ t : Token, t.kind = .comma → P t)
    (hitem : ∀ a ∈ as, ∀ us, Item a us → ∀ t ∈ us, P t) : ∀ t ∈ us, P t := by
  cases h with
  | nil => exact List.forall_mem_nil P
  | cons ha hcommas =>
    obtain ⟨hfirst, hmore⟩ := List.forall_mem_cons.mp hitem
    exact List.forall_mem_append.mpr ⟨hfirst _ ha, hcommas.forall_token hcomma hmore⟩

theorem Chained.forall_token (h : Chained Item as us)
    (hitem : ∀ a ∈ as, ∀ us, Item a us → ∀ t ∈ us, P t) : ∀ t ∈ us, P t := by
  induction h with
  | nil => exact List.forall_mem_nil P
  | cons ha _ ih =>
    obtain ⟨hfirst, hmore⟩ := List.forall_mem_cons.mp hitem
    exact List.forall_mem_append.mpr ⟨hfirst _ ha, ih hmore⟩

end Lists

theorem ne_endOfInput_of_comma {t : Token} (h : t.kind = .comma) : t.kind ≠ .endOfInput := by
  rw [h]
  decide

theorem Expr.Written.ne_endOfInput {e : Expr} {us : List Token} (h : e.Written us) :
    ∀ t ∈ us, t.kind ≠ .endOfInput := by
  cases h with
  | literal kind =>
    rintro _ ht hend
    rw [List.mem_singleton.mp ht] at hend
    rw [hend] at kind
    cases kind
  | var kind => simp [kind]
  | group left inner right =>
    simp only [List.forall_mem_append, List.forall_mem_cons, left, right]
    exact ⟨⟨by decide, inner.ne_endOfInput⟩, by decide, List.forall_mem_nil _⟩
  | call callee left arguments right =>
    have hargs := arguments.forall_token (fun _ => ne_endOfInput_of_comma)
      fun a _ us h => h.ne_endOfInput
    simp only [List.forall_mem_append, List.forall_mem_cons, left, right]
    exact ⟨⟨callee.ne_endOfInput, by decide, hargs⟩, by decide, List.forall_mem_nil _⟩
  | get object dot name =>
    simp only [List.forall_mem_append, List.forall_mem_cons, dot, name]
    exact ⟨object.ne_endOfInput, by decide, by decide, List.forall_mem_nil _⟩
  | unary operator operand =>
    refine List.forall_mem_cons.mpr ⟨fun hend => ?_, operand.ne_endOfInput⟩
    rw [hend] at operator
    cases operator
  | binary left operator right =>
    refine List.forall_mem_append.mpr ⟨left.ne_endOfInput,
      List.forall_mem_cons.mpr ⟨fun hend => ?_, right.ne_endOfInput⟩⟩
    rw [hend] at operator
    cases operator
  | @logical _ op _ _ _ _ left operator right =>
    refine List.forall_mem_append.mpr ⟨left.ne_endOfInput,
      List.forall_mem_cons.mpr ⟨fun hend => ?_, right.ne_endOfInput⟩⟩
    rw [hend] at operator
    cases op <;> cases operator
  | assign name equal value =>
    simp only [List.forall_mem_cons, name, equal]
    exact ⟨by decide, by decide, value.ne_endOfInput⟩
  | set object dot name equal value =>
    simp only [List.forall_mem_append, List.forall_mem_cons, dot, name, equal]
    exact ⟨object.ne_endOfInput, by decide, by decide, by decide, value.ne_endOfInput⟩
termination_by e

theorem Listed.ne_endOfInput {params : List String} {us : List Token}
    (h : Listed NameWritten params us) : ∀ t ∈ us, t.kind ≠ .endOfInput := by
  refine h.forall_token (fun _ => ne_endOfInput_of_comma) ?_
  rintro _ - _ ⟨t, rfl, ht, -⟩
  simp [ht]

theorem Stmt.Written.ne_endOfInput {s : Stmt} {us : List Token} (h : s.Written us) :
    ∀ t ∈ us, t.kind ≠ .endOfInput := by
  cases h with
  | block left body right =>
    have hbody := body.forall_token fun s _ us h => h.ne_endOfInput
    simp only [List.forall_mem_append, List.forall_mem_cons, left, right]
    exact ⟨⟨by decide, hbody⟩, by decide, List.forall_mem_nil _⟩
  | expression expr semicolon =>
    rw [List.forall_mem_append]
    exact ⟨expr.ne_endOfInput, by simp [semicolon]⟩
  | function keyword name left parameters right opening body closing =>
    have hbody := body.forall_token fun s _ us h => h.ne_endOfInput
    simp only [List.forall_mem_append, List.forall_mem_cons, keyword, name, left, right, opening,
      closing]
    exact ⟨⟨⟨by decide, by decide, by decide, parameters.ne_endOfInput⟩, by decide, by decide,
      hbody⟩, by decide, List.forall_mem_nil _⟩
  | shortFunction keyword name left parameters right body =>
    simp only [List.forall_mem_append, List.forall_mem_cons, keyword, name, left, right]
    exact ⟨⟨by decide, by decide, by decide, parameters.ne_endOfInput⟩, by decide,
      body.ne_endOfInput⟩
  | ifThen keyword condition yes =>
    simp only [List.forall_mem_append, List.forall_mem_cons, keyword]
    exact ⟨⟨by decide, condition.ne_endOfInput⟩, yes.ne_endOfInput⟩
  | ifElse keyword condition yes otherwise no =>
    simp only [List.forall_mem_append, List.forall_mem_cons, keyword, otherwise]
    exact ⟨⟨⟨by decide, condition.ne_endOfInput⟩, yes.ne_endOfInput⟩, by decide, no.ne_endOfInput⟩
  | giveBackNothing keyword semicolon => simp [keyword, semicolon]
  | giveBack keyword value semicolon =>
    simp only [List.forall_mem_append, List.forall_mem_cons, keyword, semicolon]
    exact ⟨⟨by decide, value.ne_endOfInput⟩, by decide, List.forall_mem_nil _⟩
  | declareNull keyword name semicolon => simp [keyword, name, semicolon]
  | declare keyword name equal initial semicolon =>
    simp only [List.forall_mem_append, List.forall_mem_cons, keyword, name, equal, semicolon]
    exact ⟨⟨by decide, by decide, by decide, initial.ne_endOfInput⟩, by decide,
      List.forall_mem_nil _⟩
  | whileLoop keyword condition body =>
    simp only [List.forall_mem_append, List.forall_mem_cons, keyword]
    exact ⟨⟨by decide, condition.ne_endOfInput⟩, body.ne_endOfInput⟩
  | forLoop keyword name keywordIn iterable body =>
    simp only [List.forall_mem_append, List.forall_mem_cons, keyword, name, keywordIn]
    exact ⟨⟨by decide, by decide, by decide, iterable.ne_endOfInput⟩, body.ne_endOfInput⟩
termination_by s

/-- **The end of input ends a program** and is no part of it. -/
theorem Chained.ne_endOfInput {ss : List Stmt} {us : List Token}
    (h : Chained Stmt.Written ss us) : ∀ t ∈ us, t.kind ≠ .endOfInput :=
  h.forall_token fun _ _ _ h => h.ne_endOfInput

/-- A program that is parsed takes all tokens before the end of input. -/
theorem used_eq_of_parse {ss : List Stmt} {used rest us : List Token} {last : Token}
    (heq : us ++ [last] = used ++ rest) (hus : ∀ t ∈ us, t.kind ≠ .endOfInput)
    (hlast : last.kind = .endOfInput) (hused : Chained Stmt.Written ss used)
    (hrest : ∀ t ∈ rest.head?, t.kind = .endOfInput) : used = us := by
  rcases List.append_eq_append_iff.mp heq with ⟨as, rfl, has⟩ | ⟨bs, rfl, hbs⟩
  · -- the tree is written with all tokens of `us`, so what it takes of the end is nothing
    cases as with
    | nil => exact List.append_nil us
    | cons a as =>
      obtain ⟨rfl, -⟩ := List.cons.inj has
      exact absurd hlast (hused.ne_endOfInput _ (by simp))
  · -- the rest starts with the end of input, which is not in `us`
    cases bs with
    | nil => exact (List.append_nil used).symm
    | cons b bs =>
      subst hbs
      exact absurd (hrest b rfl) (hus b (by simp))

/-! ## The tokens of a text -/

theorem isSome_literal? {kind : TokenKind} (h : kind.isLiteral) (lexeme : List Char) :
    (literal? kind lexeme).isSome := by
  cases kind <;> first | rfl | cases h

/-- A token of a text: it is not the end, and the constants carry their value. -/
structure Token.Proper (t : Token) : Prop where
  kind : t.kind ≠ .endOfInput
  literal : t.kind.isLiteral → t.literal.isSome

/-- **The end of input closes a text** and stands nowhere else. -/
theorem scanFrom_eq_concat {line : Nat} {cs : List Char} {ts : List Token}
    (h : scanFrom line cs = .ok ts) :
    ∃ us last, ts = us ++ [.endOfInput last] ∧ ∀ t ∈ us, t.Proper := by
  fun_induction scanFrom line cs generalizing ts with
  | case1 line =>
    cases h
    exact ⟨[], line, rfl, List.forall_mem_nil _⟩
  | case2 | case3 => cases h
  | case4 line c cs kind n hlex lexeme us hmore hskip =>
    rename_i ih
    cases h
    exact ih hmore
  | case5 line c cs kind n hlex lexeme vs hmore hskip =>
    rename_i ih
    cases h
    obtain ⟨us, last, rfl, hus⟩ := ih hmore
    have hfirst : Token.Proper ⟨kind, .ofList lexeme, literal? kind lexeme, line⟩ :=
      ⟨lexeme?_ne_endOfInput hlex, fun hkind => isSome_literal? hkind lexeme⟩
    exact ⟨_ :: us, last, rfl, List.forall_mem_cons.mpr ⟨hfirst, hus⟩⟩

/-! ## Parsing a text -/

/-- **Parsing is sound.** The tokens of a text before its end write, in their order and without any
to spare, the program that is parsed from it, constants and names being those of the tokens; and the
program keeps to the levels of the grammar, to its limits on arguments and parameters and to its
limit on nesting. -/
theorem parse_derivation {source : String} {ts : List Token} {ss : List Stmt}
    (hscan : scan source = .ok ts) (hparse : Grammar.parse ts = .ok ss) :
    ∃ used last, ts = used ++ [.endOfInput last] ∧ (∀ t ∈ used, t.Proper) ∧
      Chained Stmt.Written ss used ∧ Stmt.AllWellFormed ss ∧ Stmt.bodyDepth ss ≤ maxNesting := by
  obtain ⟨us, last, rfl, hus⟩ := scanFrom_eq_concat hscan
  obtain ⟨used, rest, heq, hchain, hrest⟩ := Grammar.parse_eq_ok.mp hparse
  obtain ⟨hwritten, hwell, hdepth⟩ := Grammar.chained_sentence_iff.mp hchain
  obtain rfl := used_eq_of_parse heq (fun t ht => (hus t ht).kind) rfl hwritten hrest
  exact ⟨used, last, rfl, hus, hwritten, hwell, hdepth⟩

/-- A body without braces, and a minus of each kind. -/
theorem parse_derivation_function :
    ∃ ts ss, scan "fun f(x) return -x - 1;" = .ok ts ∧ Grammar.parse ts = .ok ss ∧
      ∃ used last, ts = used ++ [.endOfInput last] ∧ (∀ t ∈ used, t.Proper) ∧
        Chained Stmt.Written ss used ∧ Stmt.AllWellFormed ss ∧ Stmt.bodyDepth ss ≤ maxNesting := by
  have hscan : scan "fun f(x) return -x - 1;" =
      .ok [⟨.kwFun, "fun", none, 1⟩, ⟨.identifier, "f", none, 1⟩, ⟨.leftParen, "(", none, 1⟩,
        ⟨.identifier, "x", none, 1⟩, ⟨.rightParen, ")", none, 1⟩, ⟨.kwReturn, "return", none, 1⟩,
        ⟨.minus, "-", none, 1⟩, ⟨.identifier, "x", none, 1⟩, ⟨.minus, "-", none, 1⟩,
        ⟨.number, "1", some (.number ⟨0x3ff0000000000000⟩), 1⟩, ⟨.semicolon, ";", none, 1⟩,
        .endOfInput 1] := by
    have hnumber : (Decimal.ofDigits ['1'] []).toNumber = ⟨0x3ff0000000000000⟩ := by decide
    simp [scan, scanFrom, linesPassed, lexeme?, numberLength, runLength, literal?, TokenKind.ofWord,
      TokenKind.keywords, TokenKind.isSkipped, isBlank, List.lookup_cons, hnumber]
  have hleft := Expr.Written.unary (t := ⟨.minus, "-", none, 1⟩) rfl
    (.var (t := ⟨.identifier, "x", none, 1⟩) rfl)
  have hvalue := Expr.Written.binary (t := ⟨.minus, "-", none, 1⟩) hleft rfl
    (.literal (t := ⟨.number, "1", some (.number ⟨0x3ff0000000000000⟩), 1⟩) rfl)
  have hbody := Stmt.Written.giveBack (t := ⟨.kwReturn, "return", none, 1⟩)
    (q := ⟨.semicolon, ";", none, 1⟩) rfl hvalue rfl
  have hwritten := Stmt.Written.shortFunction (f := ⟨.kwFun, "fun", none, 1⟩)
    (n := ⟨.identifier, "f", none, 1⟩) (l := ⟨.leftParen, "(", none, 1⟩)
    (r := ⟨.rightParen, ")", none, 1⟩) rfl rfl rfl
    (.cons ⟨⟨.identifier, "x", none, 1⟩, rfl, rfl, rfl⟩ .nil) rfl hbody ⟨rfl, rfl⟩
  have hparse := Grammar.parse_eq_ok.mpr ⟨_, [.endOfInput 1], rfl,
    Grammar.chained_sentence_iff.mpr ⟨.cons hwritten .nil, by
      simp [Stmt.AllWellFormed, Stmt.WellFormed, Expr.WellFormed, Expr.level, BinaryOp.level,
        maxParameters], by decide⟩, by simp [Token.endOfInput]⟩
  exact ⟨_, _, hscan, hparse, parse_derivation hscan hparse⟩

end Scriptlet
