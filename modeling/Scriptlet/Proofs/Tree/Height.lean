import Scriptlet.Proofs.Grammar.Statements
import Scriptlet.Proofs.Token.Scanning

/-!
# The height of parsed trees

What is nested in a text is nested in its tree, and only so much nesting is parsed. But trees also
grow to the left, by one node for each operator, call or member of a chain, and a chain is parsed
without nesting however long it is.

* `Expr.height`, `Stmt.height`: the longest chain of nodes inside each other.
* `Expr.flatHeight`, `Stmt.flatHeight`: the same, with what an operator, call or member goes on with
  taken to stand beside it.
* `Expr.flatHeight_le`, `Stmt.flatHeight_le`: **nesting bounds the flat height**.
* `height_of_parse`: a parsed tree has bounded flat height, and a node for each token at most.
* `not_bodyHeight_bounded`: **the height of parsed trees has no bound**.
-/

namespace Scriptlet

/-! ## Height -/

mutual

/-- How many nodes of an expression are inside each other. -/
def Expr.height : Expr → Nat
  | .literal .. | .var .. => 1
  | .group _ e | .unary _ _ e | .assign _ _ _ e | .get _ _ e => e.height + 1
  | .binary _ _ l r | .logical _ _ l r | .set _ _ l r => max l.height r.height + 1
  | .call _ c args => max c.height (Expr.argumentHeight args) + 1

def Expr.argumentHeight : List Expr → Nat
  | [] => 0
  | e :: es => max e.height (Expr.argumentHeight es)

end

mutual

/-- How many nodes of a statement are inside each other. -/
def Stmt.height : Stmt → Nat
  | .block _ body | .function _ _ _ body => Stmt.bodyHeight body + 1
  | .expression _ e | .giveBack _ (some e) | .declare _ _ (some e) => e.height + 1
  | .ifThen _ c s | .whileLoop _ c s | .forLoop _ _ c s => max c.height s.height + 1
  | .ifElse _ c yes no => max c.height (max yes.height no.height) + 1
  | .giveBack _ none | .declare _ _ none => 1

/-- **The height of a program.** -/
def Stmt.bodyHeight : List Stmt → Nat
  | [] => 0
  | s :: ss => max s.height (Stmt.bodyHeight ss)

end

mutual

/-- The height of an expression if chains of operators, calls and members are flat: the operand,
callee or object that such a node goes on with stands beside it and not below. -/
def Expr.flatHeight : Expr → Nat
  | .literal .. | .var .. => 1
  | .group _ e | .unary _ _ e | .assign _ _ _ e => e.flatHeight + 1
  | .get _ _ o => o.flatHeight
  | .binary _ _ l r | .logical _ _ l r | .set _ _ l r => max l.flatHeight (r.flatHeight + 1)
  | .call _ c args => max c.flatHeight (Expr.argumentFlatHeight args + 1)

def Expr.argumentFlatHeight : List Expr → Nat
  | [] => 0
  | e :: es => max e.flatHeight (Expr.argumentFlatHeight es)

end

mutual

/-- The height of a statement if the chains in its expressions are flat. -/
def Stmt.flatHeight : Stmt → Nat
  | .block _ body | .function _ _ _ body => Stmt.bodyFlatHeight body + 1
  | .expression _ e | .giveBack _ (some e) | .declare _ _ (some e) => e.flatHeight + 1
  | .ifThen _ c s | .whileLoop _ c s | .forLoop _ _ c s => max c.flatHeight s.flatHeight + 1
  | .ifElse _ c yes no => max c.flatHeight (max yes.flatHeight no.flatHeight) + 1
  | .giveBack _ none | .declare _ _ none => 1

/-- **The flat height of a program.** -/
def Stmt.bodyFlatHeight : List Stmt → Nat
  | [] => 0
  | s :: ss => max s.flatHeight (Stmt.bodyFlatHeight ss)

end

/-! ## Nesting bounds the flat height -/

mutual

/-- Towards the right a chain only goes on with operators that bind more tightly, so that at most
ten nodes follow each other without nesting. -/
theorem Expr.flatHeight_le : ∀ e : Expr, e.WellFormed →
    e.flatHeight + e.level ≤ 10 * e.depth + 10
  | .literal .., _ | .var .., _ => by simp [Expr.flatHeight, Expr.level]
  | .group _ e, h => by
    have he := Expr.flatHeight_le e h
    simp only [Expr.flatHeight, Expr.level, Expr.depth]
    omega
  | .unary _ _ e, h => by
    have he := Expr.flatHeight_le e h.2
    simp only [Expr.flatHeight, Expr.level, Expr.depth]
    omega
  | .assign _ _ _ e, h => by
    have he := Expr.flatHeight_le e h
    simp only [Expr.flatHeight, Expr.level, Expr.depth]
    omega
  | .get _ _ o, h => by
    have hlevel := h.1
    have ho := Expr.flatHeight_le o h.2
    simp only [Expr.flatHeight, Expr.level, Expr.depth]
    omega
  | .binary _ op l r, h => by
    obtain ⟨hleft, hright, hl, hr⟩ := h
    have hl := Expr.flatHeight_le l hl
    have hr := Expr.flatHeight_le r hr
    simp only [Expr.flatHeight, Expr.level, Expr.depth]
    omega
  | .logical _ op l r, h => by
    obtain ⟨hleft, hright, hl, hr⟩ := h
    have hl := Expr.flatHeight_le l hl
    have hr := Expr.flatHeight_le r hr
    simp only [Expr.flatHeight, Expr.level, Expr.depth]
    omega
  | .set _ _ o v, h => by
    obtain ⟨-, ho, hv⟩ := h
    have ho := Expr.flatHeight_le o ho
    have hv := Expr.flatHeight_le v hv
    simp only [Expr.flatHeight, Expr.level, Expr.depth]
    omega
  | .call _ c args, h => by
    obtain ⟨hlevel, hc, -, hargs⟩ := h
    have hc := Expr.flatHeight_le c hc
    have hargs := Expr.argumentFlatHeight_le args hargs
    simp only [Expr.flatHeight, Expr.level, Expr.depth]
    omega

theorem Expr.argumentFlatHeight_le : ∀ es : List Expr, Expr.AllWellFormed es →
    Expr.argumentFlatHeight es ≤ 10 * Expr.argumentDepth es
  | [], _ => Nat.le_refl 0
  | e :: es, h => by
    have he := Expr.flatHeight_le e h.1
    have hes := Expr.argumentFlatHeight_le es h.2
    simp only [Expr.argumentFlatHeight, Expr.argumentDepth]
    omega

end

mutual

theorem Stmt.flatHeight_le : ∀ s : Stmt, s.WellFormed → s.flatHeight ≤ 10 * s.depth + 1
  | .block _ body, h => by
    have hbody := Stmt.bodyFlatHeight_le body h
    simp only [Stmt.flatHeight, Stmt.depth]
    omega
  | .function _ _ _ body, h => by
    have hbody := Stmt.bodyFlatHeight_le body h.2
    simp only [Stmt.flatHeight, Stmt.depth]
    omega
  | .expression _ e, h | .giveBack _ (some e), h | .declare _ _ (some e), h => by
    have he := Expr.flatHeight_le e h
    simp only [Stmt.flatHeight, Stmt.depth]
    omega
  | .giveBack _ none, _ | .declare _ _ none, _ => by simp [Stmt.flatHeight, Stmt.depth]
  | .ifThen _ c s, h | .whileLoop _ c s, h | .forLoop _ _ c s, h => by
    have hc := Expr.flatHeight_le c h.1
    have hs := Stmt.flatHeight_le s h.2.2
    simp only [Stmt.flatHeight, Stmt.depth]
    omega
  | .ifElse _ c yes no, h => by
    obtain ⟨hc, -, hyes, -, -, hno⟩ := h
    have hc := Expr.flatHeight_le c hc
    have hyes := Stmt.flatHeight_le yes hyes
    have hno := Stmt.flatHeight_le no hno
    simp only [Stmt.flatHeight, Stmt.depth]
    omega

/-- **Nesting bounds the flat height of a program.** -/
theorem Stmt.bodyFlatHeight_le : ∀ ss : List Stmt, Stmt.AllWellFormed ss →
    Stmt.bodyFlatHeight ss ≤ 10 * Stmt.bodyDepth ss + 1
  | [], _ => by simp [Stmt.bodyFlatHeight, Stmt.bodyDepth]
  | s :: ss, h => by
    have hs := Stmt.flatHeight_le s h.1
    have hss := Stmt.bodyFlatHeight_le ss h.2
    simp only [Stmt.bodyFlatHeight, Stmt.bodyDepth]
    omega

end

/-! ## Every node takes a token -/

theorem Expr.argumentHeight_le_iff {es : List Expr} {n : Nat} :
    Expr.argumentHeight es ≤ n ↔ ∀ e ∈ es, e.height ≤ n := by
  induction es with
  | nil => simp [Expr.argumentHeight]
  | cons e es ih => rw [Expr.argumentHeight, Nat.max_le, ih, List.forall_mem_cons]

theorem Stmt.bodyHeight_le_iff {ss : List Stmt} {n : Nat} :
    Stmt.bodyHeight ss ≤ n ↔ ∀ s ∈ ss, s.height ≤ n := by
  induction ss with
  | nil => simp [Stmt.bodyHeight]
  | cons s ss ih => rw [Stmt.bodyHeight, Nat.max_le, ih, List.forall_mem_cons]

theorem Expr.Written.height_le {e : Expr} {us : List Token} (h : e.Written us) :
    e.height ≤ us.length := by
  cases h with
  | literal | var => exact Nat.le_refl 1
  | group left inner right =>
    have hinner := inner.height_le
    simp only [Expr.height, List.length_append, List.length_cons]
    omega
  | @call l r c args us vs callee left arguments right =>
    have hcallee := callee.height_le
    have hargs : Expr.argumentHeight args ≤ vs.length := by
      refine Expr.argumentHeight_le_iff.mpr fun a ha => ?_
      obtain ⟨ws, hwritten, hsub⟩ := arguments.exists_sublist a ha
      exact hwritten.height_le.trans hsub.length_le
    simp only [Expr.height, List.length_append, List.length_cons]
    omega
  | get object dot name =>
    have hobject := object.height_le
    simp only [Expr.height, List.length_append, List.length_cons]
    omega
  | unary operator operand =>
    have hoperand := operand.height_le
    simp only [Expr.height, List.length_cons]
    omega
  | binary left operator right | logical left operator right =>
    have hleft := left.height_le
    have hright := right.height_le
    simp only [Expr.height, List.length_append, List.length_cons]
    omega
  | assign name equal value =>
    have hvalue := value.height_le
    simp only [Expr.height, List.length_cons]
    omega
  | set object dot name equal value =>
    have hobject := object.height_le
    have hvalue := value.height_le
    simp only [Expr.height, List.length_append, List.length_cons]
    omega
termination_by e

theorem Stmt.Written.height_le {s : Stmt} {us : List Token} (h : s.Written us) :
    s.height ≤ us.length := by
  have hbody : ∀ {ss : List Stmt} {us : List Token}, Chained Stmt.Written ss us →
      (∀ s ∈ ss, ∀ us, s.Written us → s.height ≤ us.length) →
      Stmt.bodyHeight ss ≤ us.length := by
    intro ss us hchain hitem
    refine Stmt.bodyHeight_le_iff.mpr fun s hs => ?_
    obtain ⟨vs, hwritten, hsub⟩ := hchain.exists_sublist s hs
    exact (hitem s hs vs hwritten).trans hsub.length_le
  cases h with
  | block left body right =>
    have hbody := hbody body fun _ _ _ h => h.height_le
    simp only [Stmt.height, List.length_append, List.length_cons]
    omega
  | expression expr semicolon =>
    have hexpr := expr.height_le
    simp only [Stmt.height, List.length_append, List.length_cons] at hexpr ⊢
    omega
  | function keyword name left parameters right opening body closing =>
    have hbody := hbody body fun _ _ _ h => h.height_le
    simp only [Stmt.height, List.length_append, List.length_cons]
    omega
  | shortFunction keyword name left parameters right body =>
    have hbody := body.height_le
    simp only [Stmt.height, Stmt.bodyHeight, List.length_append, List.length_cons]
    omega
  | ifThen keyword condition yes =>
    have hcondition := condition.height_le
    have hyes := yes.height_le
    simp only [Stmt.height, List.length_append, List.length_cons]
    omega
  | ifElse keyword condition yes otherwise no =>
    have hcondition := condition.height_le
    have hyes := yes.height_le
    have hno := no.height_le
    simp only [Stmt.height, List.length_append, List.length_cons]
    omega
  | giveBackNothing | declareNull => simp [Stmt.height]
  | giveBack keyword value semicolon =>
    have hvalue := value.height_le
    simp only [Stmt.height, List.length_append, List.length_cons]
    omega
  | declare keyword name equal initial semicolon =>
    have hinitial := initial.height_le
    simp only [Stmt.height, List.length_append, List.length_cons]
    omega
  | whileLoop keyword condition body =>
    have hcondition := condition.height_le
    have hbody := body.height_le
    simp only [Stmt.height, List.length_append, List.length_cons]
    omega
  | forLoop keyword name keywordIn iterable body =>
    have hiterable := iterable.height_le
    have hbody := body.height_le
    simp only [Stmt.height, List.length_append, List.length_cons]
    omega
termination_by s

/-! ## Parsed trees -/

/-- **What nesting bounds, and what it does not.** A parsed program is at most ten nodes high for
each level of nesting that is allowed, if its chains of operators, calls and members are flat; and
it is never higher than it has tokens. -/
theorem height_of_parse {ts : List Token} {ss : List Stmt} (h : Grammar.parse ts = .ok ss) :
    Stmt.bodyFlatHeight ss ≤ 10 * maxNesting + 1 ∧ Stmt.bodyHeight ss ≤ ts.length := by
  obtain ⟨used, rest, rfl, hchain, -⟩ := Grammar.parse_eq_ok.mp h
  obtain ⟨hwritten, hwell, hdepth⟩ := Grammar.chained_sentence_iff.mp hchain
  constructor
  · have hflat := Stmt.bodyFlatHeight_le ss hwell
    omega
  · refine Stmt.bodyHeight_le_iff.mpr fun s hs => ?_
    obtain ⟨us, hs, hsub⟩ := hwritten.exists_sublist s hs
    exact hs.height_le.trans (hsub.trans (List.sublist_append_left used rest)).length_le

/-- A chain of calls below an operator is four high if it is flat, and five high with its nine
tokens. -/
theorem height_of_parse_calls : ∃ ss,
    Grammar.parse [⟨.minus, "-", none, 1⟩, ⟨.identifier, "f", none, 1⟩, ⟨.leftParen, "(", none, 1⟩,
      ⟨.rightParen, ")", none, 1⟩, ⟨.leftParen, "(", none, 1⟩, ⟨.identifier, "a", none, 1⟩,
      ⟨.rightParen, ")", none, 1⟩, ⟨.semicolon, ";", none, 1⟩, .endOfInput 1] = .ok ss ∧
    Stmt.bodyFlatHeight ss = 4 ∧ Stmt.bodyHeight ss = 5 ∧
    Stmt.bodyFlatHeight ss ≤ 10 * maxNesting + 1 ∧ Stmt.bodyHeight ss ≤ 9 := by
  have hcall := Expr.Written.call (l := ⟨.leftParen, "(", none, 1⟩)
    (r := ⟨.rightParen, ")", none, 1⟩) (.var (t := ⟨.identifier, "f", none, 1⟩) rfl) rfl .nil rfl
  have hcalls := Expr.Written.call (l := ⟨.leftParen, "(", none, 1⟩)
    (r := ⟨.rightParen, ")", none, 1⟩) hcall rfl
    (.cons (.var (t := ⟨.identifier, "a", none, 1⟩) rfl) .nil) rfl
  have hwritten := Stmt.Written.expression (q := ⟨.semicolon, ";", none, 1⟩)
    (.unary (t := ⟨.minus, "-", none, 1⟩) rfl hcalls) rfl
  have hparse := Grammar.parse_eq_ok.mpr ⟨_, [.endOfInput 1], rfl,
    Grammar.chained_sentence_iff.mpr ⟨.cons hwritten .nil, by
      simp [Stmt.AllWellFormed, Stmt.WellFormed, Expr.WellFormed, Expr.AllWellFormed, Expr.level,
        maxArguments], by decide⟩, by simp [Token.endOfInput]⟩
  exact ⟨_, hparse, rfl, rfl, height_of_parse hparse⟩

/-! ## Sums of any length -/

/-- The text of a sum that adds `n` times. -/
def sumText : Nat → List Char
  | 0 => ['a']
  | n + 1 => sumText n ++ ['+', 'a']

/-- An expression whose text is a sum: nothing is nested in it, and each addition is above the one
before it. -/
structure Expr.IsSum (n : Nat) (e : Expr) : Prop where
  wellFormed : e.WellFormed
  level : BinaryOp.add.level ≤ e.level
  depth : e.depth = 0
  height : e.height = n + 1

/-- **A sum of any length** is scanned as tokens that write it without nesting. -/
theorem scans_sumText (n : Nat) {rest : List Char} (h : Breaks rest) :
    Scans (fun us => ∃ e : Expr, e.Written us ∧ e.IsSum n) (sumText n ++ rest) rest := by
  have hname : IsName "a" := ⟨⟨'a', [], rfl, rfl, nofun⟩, by decide⟩
  have hvar : ∀ t : Token, BinaryOp.add.level < (Expr.var t.line t.lexeme .unresolved).level := by
    simp [Expr.level, BinaryOp.level]
  induction n generalizing rest with
  | zero =>
    refine (Scans.name hname h .nil).mono ?_
    rintro _ ⟨t, _, rfl, ⟨ht, -⟩, rfl⟩
    exact ⟨.var t.line t.lexeme .unresolved, .var ht, trivial, (hvar t).le, rfl, rfl⟩
  | succ n ih =>
    have htext : sumText (n + 1) ++ rest = sumText n ++ '+' :: ("a".toList ++ rest) := by
      simp [sumText]
    rw [htext]
    refine ((ih (breaks_cons rfl (by decide))).append
      (Scans.symbol rfl rfl (Scans.name hname h .nil))).mono ?_
    rintro _ ⟨us, _, rfl, ⟨e, he, hsum⟩, p, _, rfl, hp, t, _, rfl, ⟨ht, -⟩, rfl⟩
    refine ⟨.binary p.line .add e (.var t.line t.lexeme .unresolved),
      .binary he (by rw [hp]; rfl) (.var ht), ⟨hsum.level, hvar t, hsum.wellFormed, trivial⟩,
      Nat.le_refl _, ?_, ?_⟩
    · simp [Expr.depth, hsum.depth]
    · simp [Expr.height, hsum.height]

/-- A sum is parsed, to a tree that is higher by one for each addition. -/
theorem exists_parse_sum (n : Nat) :
    ∃ ts ss, scan (.ofList (sumText n ++ [';'])) = .ok ts ∧ Grammar.parse ts = .ok ss ∧
      Stmt.bodyHeight ss = n + 2 := by
  obtain ⟨_, line, hscan, us, _, rfl, ⟨e, he, hsum⟩, q, _, rfl, hq, rfl⟩ :=
    (scans_sumText n (breaks_cons rfl (by decide))).append (Scans.symbol (c := ';') rfl rfl .nil) 1
  obtain ⟨t, us, rfl, -⟩ := he.head
  refine ⟨t :: us ++ [q] ++ [.endOfInput line], [.expression t.line e], ?_, ?_, ?_⟩
  · rw [scan, String.toList_ofList, hscan, scanFrom]
    rfl
  · refine Grammar.parse_eq_ok.mpr ⟨_, _, rfl, Grammar.chained_sentence_iff.mpr
      ⟨?_, ⟨hsum.wellFormed, trivial⟩, ?_⟩, by rintro _ ⟨⟩; rfl⟩
    · simpa using Chained.cons (Stmt.Written.expression he hq) .nil
    · simp [Stmt.bodyDepth, Stmt.depth, hsum.depth, maxNesting]
  · simp [Stmt.bodyHeight, Stmt.height, hsum.height]

/-- **The height of parsed trees has no bound**, not even for the tokens of texts. -/
theorem not_bodyHeight_bounded :
    ¬ ∃ bound, ∀ source ts ss, scan source = .ok ts → Grammar.parse ts = .ok ss →
      Stmt.bodyHeight ss ≤ bound := by
  rintro ⟨bound, hbound⟩
  obtain ⟨ts, ss, hscan, hparse, hheight⟩ := exists_parse_sum bound
  have hle := hbound _ ts ss hscan hparse
  omega

end Scriptlet
