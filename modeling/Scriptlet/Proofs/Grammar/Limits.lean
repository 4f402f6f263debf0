import Scriptlet.Proofs.Grammar.Statements

/-!
# Limits seen from tokens

A tree is well formed if its parts are arranged as the grammar nests them and none of its lists of
arguments or parameters is too long. The lengths can be told from the tokens alone, whatever tree
they write: a list has one item more than there are commas between its parentheses.

* `Expr.Arranged`, `Stmt.Arranged`: the parts of a tree are arranged as the grammar nests them.
* `Expr.fits`, `Stmt.fits`: no list of a tree is too long.
* `Stmt.allWellFormed_iff_arranged`: well-formedness is both.
* `Expr.Written.counted`, `Stmt.Written.counted`: the commas of the tokens tell whether a tree fits.
* `Chained.allFit_congr`: **whether a program fits depends on its tokens only**.
-/

namespace Scriptlet

open Grammar (unaryOp? binaryOp?)

/-! ## The two sides of well-formedness -/

mutual

/-- Operands bind tightly enough. -/
def Expr.Arranged : Expr → Prop
  | .literal .. | .var .. => True
  | .group _ e => e.Arranged
  | .call _ c args => 8 ≤ c.level ∧ c.Arranged ∧ Expr.AllArranged args
  | .get _ _ o => 8 ≤ o.level ∧ o.Arranged
  | .unary _ _ e => 7 ≤ e.level ∧ e.Arranged
  | .binary _ op l r => op.level ≤ l.level ∧ op.level < r.level ∧ l.Arranged ∧ r.Arranged
  | .logical _ op l r => op.level ≤ l.level ∧ op.level < r.level ∧ l.Arranged ∧ r.Arranged
  | .assign _ _ _ v => v.Arranged
  | .set _ _ o v => 8 ≤ o.level ∧ o.Arranged ∧ v.Arranged

def Expr.AllArranged : List Expr → Prop
  | [] => True
  | e :: es => e.Arranged ∧ Expr.AllArranged es

end

mutual

/-- No call has too many arguments. -/
def Expr.fits : Expr → Bool
  | .literal .. | .var .. => true
  | .group _ e | .unary _ _ e | .assign _ _ _ e | .get _ _ e => e.fits
  | .binary _ _ l r | .logical _ _ l r | .set _ _ l r => l.fits && r.fits
  | .call _ c args => c.fits && (Expr.allFit args && decide (args.length ≤ maxArguments))

def Expr.allFit : List Expr → Bool
  | [] => true
  | e :: es => e.fits && Expr.allFit es

end

mutual

/-- The parts of a statement do not run into each other: a body does not go on with the condition
before it, and an `else` belongs to its own conditional. -/
def Stmt.Arranged : Stmt → Prop
  | .block _ body | .function _ _ _ body => Stmt.AllArranged body
  | .expression _ e => e.Arranged
  | .ifThen _ c yes => c.Arranged ∧ yes.Follows ∧ yes.Arranged
  | .ifElse _ c yes no =>
    c.Arranged ∧ yes.Follows ∧ yes.Arranged ∧ yes.endsOpen = false ∧
      no.isDeclaration = false ∧ no.Arranged
  | .giveBack _ none | .declare _ _ none => True
  | .giveBack _ (some e) | .declare _ _ (some e) => e.Arranged
  | .whileLoop _ c body => c.Arranged ∧ body.Follows ∧ body.Arranged
  | .forLoop _ _ e body => e.Arranged ∧ body.Follows ∧ body.Arranged

def Stmt.AllArranged : List Stmt → Prop
  | [] => True
  | s :: ss => s.Arranged ∧ Stmt.AllArranged ss

end

mutual

/-- No call has too many arguments and no function too many parameters. -/
def Stmt.fits : Stmt → Bool
  | .block _ body => Stmt.allFit body
  | .expression _ e | .giveBack _ (some e) | .declare _ _ (some e) => e.fits
  | .function _ _ params body => decide (params.length ≤ maxParameters) && Stmt.allFit body
  | .ifThen _ c s | .whileLoop _ c s | .forLoop _ _ c s => c.fits && s.fits
  | .ifElse _ c yes no => c.fits && (yes.fits && no.fits)
  | .giveBack _ none | .declare _ _ none => true

def Stmt.allFit : List Stmt → Bool
  | [] => true
  | s :: ss => s.fits && Stmt.allFit ss

end

mutual

theorem Expr.wellFormed_iff_arranged : ∀ e : Expr, e.WellFormed ↔ e.Arranged ∧ e.fits
  | .literal .. | .var .. => by simp [Expr.WellFormed, Expr.Arranged, Expr.fits]
  | .group _ e | .unary _ _ e | .assign _ _ _ e | .get _ _ e => by
    simp [Expr.WellFormed, Expr.Arranged, Expr.fits, Expr.wellFormed_iff_arranged e, and_assoc]
  | .binary _ _ l r | .logical _ _ l r | .set _ _ l r => by
    simp only [Expr.WellFormed, Expr.Arranged, Expr.fits, Expr.wellFormed_iff_arranged l,
      Expr.wellFormed_iff_arranged r, Bool.and_eq_true]
    tauto
  | .call _ c args => by
    simp only [Expr.WellFormed, Expr.Arranged, Expr.fits, Expr.wellFormed_iff_arranged c,
      Expr.allWellFormed_iff_arranged args, Bool.and_eq_true, decide_eq_true_eq]
    tauto

theorem Expr.allWellFormed_iff_arranged :
    ∀ es : List Expr, Expr.AllWellFormed es ↔ Expr.AllArranged es ∧ Expr.allFit es
  | [] => by simp [Expr.AllWellFormed, Expr.AllArranged, Expr.allFit]
  | e :: es => by
    simp only [Expr.AllWellFormed, Expr.AllArranged, Expr.allFit, Expr.wellFormed_iff_arranged e,
      Expr.allWellFormed_iff_arranged es, Bool.and_eq_true]
    tauto

end

mutual

theorem Stmt.wellFormed_iff_arranged : ∀ s : Stmt, s.WellFormed ↔ s.Arranged ∧ s.fits
  | .block _ body => by
    simp [Stmt.WellFormed, Stmt.Arranged, Stmt.fits, Stmt.allWellFormed_iff_arranged body]
  | .function _ _ params body => by
    simp only [Stmt.WellFormed, Stmt.Arranged, Stmt.fits, Stmt.allWellFormed_iff_arranged body,
      Bool.and_eq_true, decide_eq_true_eq]
    tauto
  | .giveBack _ none | .declare _ _ none => by simp [Stmt.WellFormed, Stmt.Arranged, Stmt.fits]
  | .expression _ e | .giveBack _ (some e) | .declare _ _ (some e) => by
    simp [Stmt.WellFormed, Stmt.Arranged, Stmt.fits, Expr.wellFormed_iff_arranged e]
  | .ifThen _ c s | .whileLoop _ c s | .forLoop _ _ c s => by
    simp only [Stmt.WellFormed, Stmt.Arranged, Stmt.fits, Expr.wellFormed_iff_arranged c,
      Stmt.wellFormed_iff_arranged s, Bool.and_eq_true]
    tauto
  | .ifElse _ c yes no => by
    simp only [Stmt.WellFormed, Stmt.Arranged, Stmt.fits, Expr.wellFormed_iff_arranged c,
      Stmt.wellFormed_iff_arranged yes, Stmt.wellFormed_iff_arranged no, Bool.and_eq_true]
    tauto

/-- **A program is well formed if its parts are arranged and its lists are short enough.** -/
theorem Stmt.allWellFormed_iff_arranged :
    ∀ ss : List Stmt, Stmt.AllWellFormed ss ↔ Stmt.AllArranged ss ∧ Stmt.allFit ss
  | [] => by simp [Stmt.AllWellFormed, Stmt.AllArranged, Stmt.allFit]
  | s :: ss => by
    simp only [Stmt.AllWellFormed, Stmt.AllArranged, Stmt.allFit, Stmt.wellFormed_iff_arranged s,
      Stmt.allWellFormed_iff_arranged ss, Bool.and_eq_true]
    tauto

end

theorem Expr.allFit_eq_all (es : List Expr) : Expr.allFit es = es.all Expr.fits := by
  induction es with
  | nil => rfl
  | cons e es ih => rw [Expr.allFit, List.all_cons, ih]

theorem Stmt.allFit_eq_all (ss : List Stmt) : Stmt.allFit ss = ss.all Stmt.fits := by
  induction ss with
  | nil => rfl
  | cons s ss ih => rw [Stmt.allFit, List.all_cons, ih]

/-! ## Counting commas -/

/-- Commas count alike in both kinds of lists: the limits agree. -/
theorem maxParameters_eq : maxParameters = maxArguments := rfl

/-- Reads a token and counts the commas of the lists that are open, innermost first, up to one that
makes a list too long. -/
def commaStep (opened : List Nat) (t : Token) : Option (List Nat) :=
  match t.kind, opened with
  | .leftParen, _ => some (0 :: opened)
  | .rightParen, _ => some opened.tail
  | .comma, n :: outer => if n + 1 < maxArguments then some ((n + 1) :: outer) else none
  | _, _ => some opened

/-- The tokens leave the open lists as they were if `fits`, and else hold one that is too long. -/
def Counted (fits : Bool) (us : List Token) : Prop :=
  ∀ opened, us.foldlM commaStep opened = if fits then some opened else none

theorem counted_nil : Counted true [] := fun _ => rfl

theorem Counted.append {b c : Bool} {us vs : List Token} (h : Counted b us) (h' : Counted c vs) :
    Counted (b && c) (us ++ vs) := by
  intro opened
  rw [List.foldlM_append, h]
  cases b with
  | true => exact h' opened
  | false => rfl

theorem Counted.cons {t : Token} {b : Bool} {us : List Token}
    (ht : t.kind ≠ .leftParen ∧ t.kind ≠ .rightParen ∧ t.kind ≠ .comma) (h : Counted b us) :
    Counted b (t :: us) := by
  intro opened
  have hstep : commaStep opened t = some opened := by
    unfold commaStep
    split
    · exact absurd ‹_› ht.1
    · exact absurd ‹_› ht.2.1
    · exact absurd ‹_› ht.2.2
    · rfl
  rw [List.foldlM_cons, hstep]
  exact h opened

theorem counted_singleton {t : Token}
    (ht : t.kind ≠ .leftParen ∧ t.kind ≠ .rightParen ∧ t.kind ≠ .comma) : Counted true [t] :=
  counted_nil.cons ht

section Lists

variable {α : Type} {Item : α → List Token → Prop} {fits : α → Bool} {as : List α}
  {us vs : List Token}

theorem Commas.foldlM (h : Commas Item as vs)
    (hitem : ∀ a ∈ as, ∀ us, Item a us → Counted (fits a) us) (opened : List Nat) {n : Nat}
    (hn : n < maxArguments) :
    vs.foldlM commaStep (n :: opened) =
      if as.all fits && decide (n + as.length < maxArguments) then some ((n + as.length) :: opened)
      else none := by
  induction h generalizing n with
  | nil => simp [hn]
  | @cons t a us as vs ht ha _ ih =>
    obtain ⟨hfirst, hmore⟩ := List.forall_mem_cons.mp hitem
    have hstep : commaStep (n :: opened) t =
        if n + 1 < maxArguments then some ((n + 1) :: opened) else none := by
      simp [commaStep, ht]
    rw [List.cons_append, List.foldlM_cons, hstep]
    by_cases hlong : n + 1 < maxArguments
    · rw [if_pos hlong, Option.bind_eq_bind, Option.bind_some, List.foldlM_append, hfirst us ha]
      cases hfits : fits a with
      | true =>
        have hlength : n + 1 + as.length = n + (a :: as).length := by rw [List.length_cons]; omega
        simp only [if_true, Option.bind_eq_bind, Option.bind_some, List.all_cons, hfits,
          Bool.true_and]
        rw [ih hmore hlong, hlength]
      | false => simp [hfits]
    · have hmany : ¬ n + (a :: as).length < maxArguments := by rw [List.length_cons]; omega
      rw [if_neg hlong, decide_eq_false hmany, Bool.and_false]
      rfl

/-- **A list in parentheses**: it fits if its items do and it is not too long. -/
theorem Listed.counted {l r : Token} (h : Listed Item as vs)
    (hitem : ∀ a ∈ as, ∀ us, Item a us → Counted (fits a) us) (hl : l.kind = .leftParen)
    (hr : r.kind = .rightParen) :
    Counted (as.all fits && decide (as.length ≤ maxArguments)) (l :: vs ++ [r]) := by
  intro opened
  have hopen : commaStep opened l = some (0 :: opened) := by simp [commaStep, hl]
  have hclose : ∀ n, commaStep (n :: opened) r = some opened := by simp [commaStep, hr]
  rw [List.cons_append, List.foldlM_cons, hopen, Option.bind_eq_bind, Option.bind_some,
    List.foldlM_append]
  cases h with
  | nil => simp [hclose]
  | @cons a us as vs ha hcommas =>
    obtain ⟨hfirst, hmore⟩ := List.forall_mem_cons.mp hitem
    rw [List.foldlM_append, hfirst us ha]
    cases hfits : fits a with
    | false => simp [hfits]
    | true =>
      have hcount := hcommas.foldlM hmore opened (n := 0) (by decide)
      have hlength : decide (0 + as.length < maxArguments) =
          decide ((a :: as).length ≤ maxArguments) := by
        rw [List.length_cons]
        exact decide_eq_decide.mpr (by omega)
      simp only [if_true, Option.bind_eq_bind, Option.bind_some, hcount, hlength, List.all_cons,
        hfits, Bool.true_and]
      split_ifs with hall
      · simp [hclose]
      · rfl

theorem Chained.counted (h : Chained Item as us)
    (hitem : ∀ a ∈ as, ∀ us, Item a us → Counted (fits a) us) : Counted (as.all fits) us := by
  induction h with
  | nil => exact counted_nil
  | cons ha _ ih =>
    obtain ⟨hfirst, hmore⟩ := List.forall_mem_cons.mp hitem
    rw [List.all_cons]
    exact (hfirst _ ha).append (ih hmore)

end Lists

/-! ## Trees -/

theorem Counted.parenthesized {l r : Token} {b : Bool} {us : List Token} (h : Counted b us)
    (hl : l.kind = .leftParen) (hr : r.kind = .rightParen) : Counted b (l :: us ++ [r]) := by
  intro opened
  have hopen : commaStep opened l = some (0 :: opened) := by simp [commaStep, hl]
  have hclose : commaStep (0 :: opened) r = some opened := by simp [commaStep, hr]
  rw [List.cons_append, List.foldlM_cons, hopen, Option.bind_eq_bind, Option.bind_some,
    List.foldlM_append, h]
  cases b with
  | true => simp [hclose]
  | false => rfl

/-- **The commas of an expression** tell whether it fits. -/
theorem Expr.Written.counted {e : Expr} {us : List Token} (h : e.Written us) :
    Counted e.fits us := by
  cases h with
  | literal kind => exact counted_singleton (by revert kind; cases Token.kind _ <;> decide)
  | var kind => exact counted_singleton (by rw [kind]; decide)
  | group left inner right => exact inner.counted.parenthesized left right
  | call callee left arguments right =>
    have hlist := arguments.counted (fun a _ us h => h.counted) left right
    rw [Expr.fits, Expr.allFit_eq_all]
    simpa using callee.counted.append hlist
  | @get d n o us object dot name =>
    have hname : Counted true [n] := counted_singleton (by rw [name]; decide)
    have hmember : Counted true [d, n] := hname.cons (by rw [dot]; decide)
    rw [Expr.fits, ← Bool.and_true o.fits]
    exact object.counted.append hmember
  | @unary t _ _ _ operator operand =>
    refine operand.counted.cons ?_
    generalize t.kind = k at operator
    cases k <;> first | decide | cases operator
  | @binary t _ _ _ _ _ left operator right =>
    refine left.counted.append (right.counted.cons ?_)
    generalize t.kind = k at operator
    cases k <;> first | decide | cases operator
  | @logical t op _ _ _ _ left operator right =>
    exact left.counted.append (right.counted.cons (by rw [operator]; cases op <;> decide))
  | assign name equal value =>
    exact (value.counted.cons (by rw [equal]; decide)).cons (by rw [name]; decide)
  | set object dot name equal value =>
    have hvalue := (value.counted.cons (by rw [equal]; decide)).cons (by rw [name]; decide)
    exact object.counted.append (hvalue.cons (by rw [dot]; decide))
termination_by e

theorem NameWritten.counted {name : String} {us : List Token} (h : NameWritten name us) :
    Counted true us := by
  obtain ⟨t, rfl, ht, -⟩ := h
  exact counted_singleton (by rw [ht]; decide)

theorem counted_parameters {f n l r : Token} {params : List String} {us : List Token}
    (hf : f.kind = .kwFun) (hn : n.kind = .identifier) (hl : l.kind = .leftParen)
    (h : Listed NameWritten params us) (hr : r.kind = .rightParen) :
    Counted (decide (params.length ≤ maxParameters)) (f :: n :: (l :: us ++ [r])) := by
  have hlist : Counted (params.all (fun _ => true) && decide (params.length ≤ maxArguments))
      (l :: us ++ [r]) := h.counted (fun _ _ _ h => h.counted) hl hr
  have hnames : params.all (fun _ => true) = true := List.all_eq_true.mpr fun _ _ => rfl
  rw [hnames, Bool.true_and, ← maxParameters_eq] at hlist
  exact (hlist.cons (by rw [hn]; decide)).cons (by rw [hf]; decide)

/-- **The commas of a statement** tell whether it fits. -/
theorem Stmt.Written.counted {s : Stmt} {us : List Token} (h : s.Written us) :
    Counted s.fits us := by
  have hsemicolon : ∀ {b : Bool} {us : List Token} {q : Token}, Counted b us →
      q.kind = .semicolon → Counted b (us ++ [q]) := by
    intro b us q h hq
    rw [← Bool.and_true b]
    exact h.append (counted_singleton (by rw [hq]; decide))
  have hbraces : ∀ {ss : List Stmt} {us : List Token} {l r : Token},
      Counted (ss.all Stmt.fits) us → l.kind = .leftBrace → r.kind = .rightBrace →
      Counted (Stmt.allFit ss) (l :: us ++ [r]) := by
    intro ss us l r h hl hr
    rw [Stmt.allFit_eq_all, ← Bool.and_true (List.all _ _)]
    exact (h.cons (by rw [hl]; decide)).append (counted_singleton (by rw [hr]; decide))
  cases h with
  | block left body right => exact hbraces (body.counted fun s _ us h => h.counted) left right
  | expression expr semicolon => exact hsemicolon expr.counted semicolon
  | function keyword name left parameters right opening body closing =>
    have hbody := hbraces (body.counted fun s _ us h => h.counted) opening closing
    rw [Stmt.fits]
    simpa using (counted_parameters keyword name left parameters right).append hbody
  | shortFunction keyword name left parameters right body =>
    rw [Stmt.fits, Stmt.allFit, Stmt.allFit, Bool.and_true]
    simpa using (counted_parameters keyword name left parameters right).append body.counted
  | ifThen keyword condition yes =>
    exact (condition.counted.cons (by rw [keyword]; decide)).append yes.counted
  | ifElse keyword condition yes otherwise no =>
    have hno := no.counted.cons (t := _) (by rw [otherwise]; decide)
    simpa [Stmt.fits] using
      (condition.counted.cons (by rw [keyword]; decide)).append (yes.counted.append hno)
  | giveBackNothing keyword semicolon =>
    exact (counted_singleton (by rw [semicolon]; decide)).cons (by rw [keyword]; decide)
  | giveBack keyword value semicolon =>
    exact hsemicolon (value.counted.cons (by rw [keyword]; decide)) semicolon
  | declareNull keyword name semicolon =>
    have hend := (counted_singleton (by rw [semicolon]; decide)).cons (by rw [name]; decide)
    exact hend.cons (by rw [keyword]; decide)
  | declare keyword name equal initial semicolon =>
    have hinitial := (initial.counted.cons (by rw [equal]; decide)).cons (by rw [name]; decide)
    exact hsemicolon (hinitial.cons (by rw [keyword]; decide)) semicolon
  | whileLoop keyword condition body =>
    exact (condition.counted.cons (by rw [keyword]; decide)).append body.counted
  | forLoop keyword name keywordIn iterable body =>
    have hhead := (iterable.counted.cons (by rw [keywordIn]; decide)).cons (by rw [name]; decide)
    exact (hhead.cons (by rw [keyword]; decide)).append body.counted
termination_by s

/-- **Whether a program fits can be told from its tokens**, whatever program they write. -/
theorem Chained.allFit_congr {ss ss' : List Stmt} {us : List Token}
    (h : Chained Stmt.Written ss us) (h' : Chained Stmt.Written ss' us) :
    Stmt.allFit ss = Stmt.allFit ss' := by
  have hcount := h.counted (fun s _ us h => h.counted) []
  rw [h'.counted (fun s _ us h => h.counted) [], ← Stmt.allFit_eq_all, ← Stmt.allFit_eq_all]
    at hcount
  revert hcount
  cases Stmt.allFit ss <;> cases Stmt.allFit ss' <;> simp

end Scriptlet
