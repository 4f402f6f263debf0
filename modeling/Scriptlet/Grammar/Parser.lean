import Scriptlet.Error
import Scriptlet.Token

/-!
# Parsers

A parser reads a list of tokens from the front and leaves the tokens it did not use, on failure as
well as on success. It may also have recovered from errors on its way; these are reported beside
its result.

* `Parser`: a parser together with the fact that **what it leaves is a suffix of what it was
  given**, on which all loops of the grammar rest.
* `Parser.headed`: takes one token and goes on as that token says.
* `Parser.extend`: grows a result by what follows it, one announcing token at a time.
* `Parser.Consumes`: a success takes at least one token.
-/

namespace Scriptlet

/-- What a parser makes of a list of tokens. -/
structure Reply (α : Type) where
  result : Except ParseError α
  recovered : List ParseError
  rest : List Token

/-- A reply after earlier errors. -/
def Reply.after {α : Type} (errors : List ParseError) (r : Reply α) : Reply α :=
  { r with recovered := errors ++ r.recovered }

/-- A parser, whose rest is a suffix of its input. -/
structure Parser (α : Type) where
  run : List Token → Reply α
  suffix : ∀ ts, (run ts).rest <:+ ts

/-- Continues with `f` if the first parser succeeded. -/
def Reply.andThen {α β : Type} (r : Reply α) (f : α → Parser β) : Reply β :=
  match r.result with
  | .error e => ⟨.error e, r.recovered, r.rest⟩
  | .ok a => ((f a).run r.rest).after r.recovered

theorem Reply.andThen_suffix {α β : Type} (r : Reply α) (f : α → Parser β) :
    (r.andThen f).rest <:+ r.rest := by
  unfold Reply.andThen
  split
  · exact List.suffix_refl _
  · exact (f _).suffix _

namespace Parser

variable {α β : Type}

/-! ## Sequencing -/

/-- Succeeds without taking a token. -/
def succeed (a : α) : Parser α := ⟨fun ts => ⟨.ok a, [], ts⟩, fun ts => List.suffix_refl ts⟩

/-- Fails without taking a token. -/
def fail (e : ParseError) : Parser α :=
  ⟨fun ts => ⟨.error e, [], ts⟩, fun ts => List.suffix_refl ts⟩

/-- One parser after another. -/
def andThen (p : Parser α) (f : α → Parser β) : Parser β :=
  ⟨fun ts => (p.run ts).andThen f,
    fun ts => (Reply.andThen_suffix _ f).trans (p.suffix ts)⟩

instance : Monad Parser where
  pure := succeed
  bind := andThen

/-! ## Single tokens -/

/-- The error at the next token, which is not what was expected. -/
def unexpectedAt (expected : Expectation) : List Token → ParseError
  | [] => .unexpectedEnd expected 0
  | t :: _ =>
    if t.kind = .endOfInput then .unexpectedEnd expected t.line
    else .unexpectedToken expected t.lexeme t.line

/-- Fails at the next token. -/
def unexpected (expected : Expectation) : Parser α :=
  ⟨fun ts => ⟨.error (unexpectedAt expected ts), [], ts⟩, fun ts => List.suffix_refl ts⟩

/-- The line of the next token, or zero if there is none. -/
def nextLine : Parser Nat :=
  ⟨fun ts => ⟨.ok (ts.head?.elim 0 Token.line), [], ts⟩, fun ts => List.suffix_refl ts⟩

/-- Takes the next token and goes on as it says; if it says nothing, leaves it to `otherwise`. -/
def headed (choice : Token → Option (Parser α)) (otherwise : Parser α) : Parser α where
  run
    | [] => otherwise.run []
    | t :: ts =>
      match choice t with
      | none => otherwise.run (t :: ts)
      | some p => p.run ts
  suffix
    | [] => otherwise.suffix []
    | t :: ts => by
      dsimp only
      split
      · exact otherwise.suffix _
      · rename_i p _
        exact (p.suffix ts).trans (List.suffix_cons t ts)

/-- Takes a token of the given kind. -/
def expect (kind : TokenKind) (expected : Expectation) : Parser Token :=
  headed (fun t => if t.kind = kind then some (succeed t) else none) (unexpected expected)

/-- Takes a name. -/
def name (expected : Expectation) : Parser String := do
  let token ← expect .identifier expected
  return token.lexeme

/-! ## Repetition -/

/-- The run of `extend`. -/
def extendRun (more : α → Token → Option (Parser α)) (a : α) : List Token → Reply α
  | [] => ⟨.ok a, [], []⟩
  | t :: ts =>
    match more a t with
    | none => ⟨.ok a, [], t :: ts⟩
    | some p =>
      match (p.run ts).result with
      | .error e => ⟨.error e, (p.run ts).recovered, (p.run ts).rest⟩
      | .ok b => (extendRun more b (p.run ts).rest).after (p.run ts).recovered
termination_by ts => ts.length
decreasing_by
  have := (p.suffix ts).length_le
  simp only [List.length_cons]
  omega

theorem extendRun_suffix (more : α → Token → Option (Parser α)) (a : α) (ts : List Token) :
    (extendRun more a ts).rest <:+ ts := by
  fun_induction extendRun more a ts with
  | case1 | case2 => exact List.suffix_refl _
  | case3 a t ts p _ e _ => exact (p.suffix ts).trans (List.suffix_cons t ts)
  | case4 a t ts p _ b _ ih =>
    exact (ih.trans (p.suffix ts)).trans (List.suffix_cons t ts)

/-- Grows `a` by what follows it, as long as the next token announces more. -/
def extend (more : α → Token → Option (Parser α)) (a : α) : Parser α :=
  ⟨extendRun more a, extendRun_suffix more a⟩

/-- Items between commas, up to and including the closing parenthesis. -/
def commaList (item : Parser α) : Parser (List α) :=
  headed (fun t => if t.kind = .rightParen then some (succeed []) else none) do
    let first ← item
    let items ← extend
      (fun items t =>
        if t.kind = .comma then some (do let next ← item; return items ++ [next]) else none)
      [first]
    let _ ← expect .rightParen .listSeparator
    return items

/-! ## Progress -/

/-- A success takes at least one token. -/
def Consumes (p : Parser α) : Prop :=
  ∀ ts a, (p.run ts).result = .ok a → (p.run ts).rest.length < ts.length

theorem consumes_fail (e : ParseError) : (fail e : Parser α).Consumes := by
  intro ts a h
  cases h

theorem consumes_unexpected (expected : Expectation) :
    (unexpected expected : Parser α).Consumes := by
  intro ts a h
  cases h

theorem Consumes.andThen_left {p : Parser α} (hp : p.Consumes) (f : α → Parser β) :
    (p.andThen f).Consumes := by
  intro ts b h
  have hle := (Reply.andThen_suffix (p.run ts) f).length_le
  cases hr : (p.run ts).result with
  | error e => simp [andThen, Reply.andThen, hr] at h
  | ok a => exact Nat.lt_of_le_of_lt hle (hp ts a hr)

theorem Consumes.andThen_right {p : Parser α} {f : α → Parser β} (hf : ∀ a, (f a).Consumes) :
    (p.andThen f).Consumes := by
  intro ts b h
  cases hr : (p.run ts).result with
  | error e => simp [andThen, Reply.andThen, hr] at h
  | ok a =>
    simp only [andThen, Reply.andThen, hr, Reply.after] at h ⊢
    exact Nat.lt_of_lt_of_le (hf a _ b h) (p.suffix ts).length_le

theorem Consumes.headed {otherwise : Parser α} (h : otherwise.Consumes)
    (choice : Token → Option (Parser α)) : (headed choice otherwise).Consumes := by
  intro ts a hr
  cases ts with
  | nil => exact h [] a hr
  | cons t ts =>
    simp only [Parser.headed] at hr ⊢
    split at hr
    · exact h _ a hr
    · rename_i p hp
      simpa [hp] using Nat.lt_succ_of_le (p.suffix ts).length_le

theorem consumes_expect (kind : TokenKind) (expected : Expectation) :
    (expect kind expected).Consumes :=
  (consumes_unexpected expected).headed _

/-- A parser whose successes take at least one token. -/
structure Consuming (α : Type) extends Parser α where
  consumes : toParser.Consumes

end Parser

end Scriptlet
