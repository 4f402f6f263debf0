import Mathlib.Data.List.Forall2
import Scriptlet.Session
import Scriptlet.Tree.Print
import Scriptlet.Proofs.Grammar.Statements
import Scriptlet.Proofs.Token.Scanning
import Scriptlet.Proofs.Tree.Unlined

/-!
# Printing and reading back

The printed text of a tree that was parsed is scanned as tokens that write the tree again, but for
lines and for number literals too large for a finite number: these are printed as the name `inf`.
Nothing but blanks stands between the parts, so the text is followed lexeme by lexeme, and each
part only needs to know that what follows it does not extend its last lexeme (`Breaks`).

* `Literal.reread`: the expression that is read back in place of a constant.
* `ReadsBack`: a text is scanned as tokens that write something, whatever follows.
* `Expr.Written.readsBack`, `Stmt.Written.readsBack`: expressions and statements read back.
* `tree_programText`: **a printed program is parsed again, to the same tree up to lines exactly if
  all its number literals are finite**.
-/

namespace Scriptlet

/-! ## Constants -/

/-- What a constant is read back as: infinity is printed as a name. -/
def Literal.reread : Literal → Expr
  | .number x => if x.isFinite then .literal 0 (.number x) else .var 0 "inf" .unresolved
  | v => .literal 0 v

theorem Literal.isAtom_reread (v : Literal) : v.reread.IsAtom := by
  cases v with
  | number x =>
    rw [Literal.reread]
    split_ifs
    · exact .literal
    · exact .var
  | _ => exact .literal

theorem Literal.reread_eq_iff {v : Literal} :
    v.reread = .literal 0 v ↔ ∀ x, v = .number x → x.isFinite := by
  cases v with
  | number x => by_cases hx : x.isFinite <;> simp [Literal.reread, hx]
  | _ => simp [Literal.reread]

/-- The text of a constant is one lexeme that writes it, unless it is infinity. -/
theorem Literal.lexes {v : Literal} (hv : v.Writable) {rest : List Char} (hrest : Breaks rest) :
    ∃ kind, Lexes kind v.text.toList rest ∧
      (kind.isLiteral ∧ literal? kind v.text.toList = some v ∧ v.reread = .literal 0 v ∨
        kind = .identifier ∧ v.reread = .var 0 v.text .unresolved) := by
  cases v with
  | number x =>
    by_cases hx : x.isFinite
    · obtain ⟨whole, fraction, htext, hdigits, hnumber⟩ := Number.plainText_toList hx hv
      refine ⟨.number, ?_, .inl ⟨rfl, ?_, ?_⟩⟩
      · rw [Literal.text, htext]
        exact hdigits.lexes hrest
      · rw [Literal.text, htext, literal?_pointed hdigits, hnumber]
      · rw [Literal.reread, if_pos hx]
    · have htext : x.plainText = "inf" := by rw [Number.plainText_eq hv, if_neg hx]
      have hname : IsName "inf" := ⟨⟨'i', ['n', 'f'], rfl, rfl, by simp⟩, rfl⟩
      refine ⟨.identifier, ?_, .inr ⟨rfl, ?_⟩⟩
      · rw [Literal.text, htext]
        exact hname.lexes hrest
      · rw [Literal.reread, if_neg hx, Literal.text, htext]
  | string s =>
    by_cases hquote : '"' ∈ s.toList
    · have htext : (Literal.string s).text.toList = '\'' :: (s.toList ++ ['\'']) := by
        simp [Literal.text, Literal.quoteFor, hquote]
      have hsingle : '\'' ∉ s.toList := hv.resolve_left (not_not_intro hquote)
      refine ⟨.singleQuoted, ?_, .inl ⟨rfl, ?_, rfl⟩⟩
      · rw [htext]
        exact lexes_quoted (fun _ => rfl) hsingle rest
      · rw [htext, literal?, List.tail_cons, List.dropLast_concat, String.ofList_toList]
    · have htext : (Literal.string s).text.toList = '"' :: (s.toList ++ ['"']) := by
        simp [Literal.text, Literal.quoteFor, hquote]
      refine ⟨.doubleQuoted, ?_, .inl ⟨rfl, ?_, rfl⟩⟩
      · rw [htext]
        exact lexes_quoted (fun _ => rfl) hquote rest
      · rw [htext, literal?, List.tail_cons, List.dropLast_concat, String.ofList_toList]
  | bool b =>
    cases b
    · have hword : IsWord "false".toList := ⟨'f', ['a', 'l', 's', 'e'], rfl, rfl, by simp⟩
      exact ⟨.kwFalse, hword.lexes hrest, .inl ⟨rfl, rfl, rfl⟩⟩
    · have hword : IsWord "true".toList := ⟨'t', ['r', 'u', 'e'], rfl, rfl, by simp⟩
      exact ⟨.kwTrue, hword.lexes hrest, .inl ⟨rfl, rfl, rfl⟩⟩
  | null =>
    have hword : IsWord "null".toList := ⟨'n', ['u', 'l', 'l'], rfl, rfl, by simp⟩
    exact ⟨.kwNull, hword.lexes hrest, .inl ⟨rfl, rfl, rfl⟩⟩

/-! ## Texts that read back -/

section ReadsBackAs

variable {α β : Type} {text : β → String} {Item : α → List Token → Prop} {Same : β → α → Prop}

/-- The text of `b` is scanned as tokens that write some `a` that is the same as `b`, whatever
follows. -/
def ReadsBackAs (text : β → String) (Item : α → List Token → Prop) (Same : β → α → Prop) (b : β) :
    Prop :=
  ∀ rest, Breaks rest → Scans (fun us => ∃ a, Item a us ∧ Same b a) ((text b).toList ++ rest) rest

theorem breaks_separated {sep : String} {ts : List String} {rest : List Char}
    (hsep : ∀ cs, Breaks (sep.toList ++ cs)) (hrest : Breaks rest) :
    Breaks (ts.flatMap (sep.toList ++ ·.toList) ++ rest) := by
  cases ts with
  | nil => exact hrest
  | cons t ts =>
    rw [List.flatMap_cons, List.append_assoc, List.append_assoc]
    exact hsep _

theorem breaks_comma (cs : List Char) : Breaks (", ".toList ++ cs) := breaks_cons rfl (by decide)

theorem breaks_space (cs : List Char) : Breaks (" ".toList ++ cs) := breaks_cons rfl (by decide)

theorem readsBack_commas {bs : List β} (h : ∀ b ∈ bs, ReadsBackAs text Item Same b)
    {rest : List Char} (hrest : Breaks rest) :
    Scans (fun us => ∃ as, Commas Item as us ∧ List.Forall₂ Same bs as)
      ((bs.map text).flatMap (", ".toList ++ ·.toList) ++ rest) rest := by
  induction bs with
  | nil =>
    refine Scans.nil.mono ?_
    rintro _ rfl
    exact ⟨[], .nil, .nil⟩
  | cons b bs ih =>
    obtain ⟨hb, hbs⟩ := List.forall_mem_cons.mp h
    have hitem := (hb _ (breaks_separated breaks_comma hrest)).append (ih hbs)
    rw [List.map_cons, List.flatMap_cons, List.append_assoc, List.append_assoc]
    refine (Scans.symbol rfl rfl hitem.space).mono ?_
    rintro _ ⟨t, _, rfl, ht, us, vs, rfl, ⟨a, ha, hsame⟩, as, has, hsames⟩
    exact ⟨a :: as, .cons ht ha has, .cons hsame hsames⟩

theorem readsBack_listed {bs : List β} (h : ∀ b ∈ bs, ReadsBackAs text Item Same b)
    {rest : List Char} (hrest : Breaks rest) :
    Scans (fun us => ∃ as, Listed Item as us ∧ List.Forall₂ Same bs as)
      ((", ".intercalate (bs.map text)).toList ++ rest) rest := by
  cases bs with
  | nil =>
    refine Scans.nil.mono ?_
    rintro _ rfl
    exact ⟨[], .nil, .nil⟩
  | cons b bs =>
    obtain ⟨hb, hbs⟩ := List.forall_mem_cons.mp h
    rw [List.map_cons, toList_intercalate_cons, List.append_assoc]
    refine ((hb _ (breaks_separated breaks_comma hrest)).append
      (readsBack_commas hbs hrest)).mono ?_
    rintro _ ⟨us, vs, rfl, ⟨a, ha, hsame⟩, as, has, hsames⟩
    exact ⟨a :: as, .cons ha has, .cons hsame hsames⟩

theorem readsBack_chained {bs : List β} (h : ∀ b ∈ bs, ReadsBackAs text Item Same b)
    {rest : List Char} (hrest : Breaks rest) :
    Scans (fun us => ∃ as, Chained Item as us ∧ List.Forall₂ Same bs as)
      ((bs.map text).flatMap (" ".toList ++ ·.toList) ++ rest) rest := by
  induction bs with
  | nil =>
    refine Scans.nil.mono ?_
    rintro _ rfl
    exact ⟨[], .nil, .nil⟩
  | cons b bs ih =>
    obtain ⟨hb, hbs⟩ := List.forall_mem_cons.mp h
    have hitem := (hb _ (breaks_separated breaks_space hrest)).append (ih hbs)
    rw [List.map_cons, List.flatMap_cons, List.append_assoc, List.append_assoc]
    refine hitem.space.mono ?_
    rintro _ ⟨us, vs, rfl, ⟨a, ha, hsame⟩, as, has, hsames⟩
    exact ⟨a :: as, .cons ha has, .cons hsame hsames⟩

end ReadsBackAs

/-! ## Expressions -/

/-- What is read back of an expression. -/
def Expr.Reread (e e' : Expr) : Prop :=
  e'.unlinedWith (.literal 0) = e.unlinedWith Literal.reread

abbrev Expr.ReadsBack (e : Expr) : Prop := ReadsBackAs Expr.text Expr.Written Expr.Reread e

theorem IsName.readsBack {name : String} (h : IsName name) :
    ReadsBackAs id NameWritten (fun n n' => n = n') name := by
  intro rest hrest
  refine (Scans.name h hrest .nil).mono ?_
  rintro _ ⟨n, _, rfl, ⟨hn, hlexeme⟩, rfl⟩
  exact ⟨name, ⟨n, rfl, hn, hlexeme.symm⟩, rfl⟩

theorem Scans.assigned {P : List Token → Prop} {name : String} {ds rest : List Char}
    (h : IsName name) (hds : Scans P ds rest) :
    Scans (fun us => ∃ n q vs, us = n :: q :: vs ∧ (n.kind = .identifier ∧ n.lexeme = name) ∧
      q.kind = .equal ∧ P vs) (name.toList ++ ' ' :: '=' :: ' ' :: ds) rest := by
  refine (Scans.name h (breaks_cons rfl (by decide)) (Scans.symbol rfl rfl hds.space).space).mono ?_
  rintro _ ⟨n, _, rfl, hn, q, vs, rfl, hq, hP⟩
  exact ⟨n, q, vs, rfl, hn, hq, hP⟩

theorem Literal.readsBack {v : Literal} (hv : v.Writable) {line : Nat} :
    (Expr.literal line v).ReadsBack := by
  intro rest hrest
  obtain ⟨kind, hlex, hcase⟩ := Literal.lexes hv hrest
  have hkind : kind.isSkipped = false := by
    rcases hcase with ⟨hkind, -⟩ | ⟨rfl, -⟩
    · exact TokenKind.isSkipped_of_isLiteral hkind
    · rfl
  refine (Scans.lexeme hlex hkind .nil).mono ?_
  rintro _ ⟨t, _, rfl, ⟨ht, hlexeme, hliteral⟩, rfl⟩
  rcases hcase with ⟨hkind, hvalue, hreread⟩ | ⟨rfl, hreread⟩
  · refine ⟨.literal t.line (t.literal.getD .null), .literal (by rwa [ht]), ?_⟩
    show Expr.literal 0 (t.literal.getD .null) = v.reread
    rw [hliteral, hvalue, hreread]
    rfl
  · refine ⟨.var t.line t.lexeme .unresolved, .var ht, ?_⟩
    show Expr.var 0 t.lexeme .unresolved = v.reread
    rw [hlexeme, String.ofList_toList, hreread]

theorem forall₂_reread {es es' : List Expr} (h : List.Forall₂ Expr.Reread es es') :
    Expr.allUnlinedWith (.literal 0) es' = Expr.allUnlinedWith Literal.reread es := by
  induction h with
  | nil => rfl
  | cons h _ ih => exact congrArg₂ List.cons h ih

/-- The text starts with something other than an equals sign. -/
def StartsPlain (s : String) : Prop := ∃ c cs, s.toList = c :: cs ∧ c ≠ '='

theorem Lexes.startsPlain {kind : TokenKind} {s : String} {rest : List Char}
    (h : Lexes kind s.toList rest) (hkind : kind.startsExpression) : StartsPlain s := by
  obtain ⟨c, ds, hs, hlex⟩ := h
  refine ⟨c, ds, hs, ?_⟩
  rintro rfl
  have hequal : some (withEqual (ds ++ rest) .equal .equalEqual) = some (kind, ds.length) := hlex
  unfold withEqual at hequal
  split_ifs at hequal <;> obtain ⟨rfl, -⟩ := Prod.mk.inj (Option.some.inj hequal) <;> cases hkind

theorem StartsPlain.append {s : String} (h : StartsPlain s) (t : String) :
    StartsPlain (s ++ t) := by
  obtain ⟨c, cs, hs, hc⟩ := h
  exact ⟨c, cs ++ t.toList, by rw [String.toList_append, hs]; rfl, hc⟩

theorem IsName.startsPlain {name : String} (h : IsName name) : StartsPlain name :=
  (h.lexes breaks_nil).startsPlain rfl

theorem Literal.startsPlain {v : Literal} (hv : v.Writable) : StartsPlain v.text := by
  obtain ⟨kind, hlex, ⟨hkind, -⟩ | ⟨rfl, -⟩⟩ := Literal.lexes hv breaks_nil
  · exact hlex.startsPlain (TokenKind.of_isLiteral hkind).1
  · exact hlex.startsPlain rfl

theorem Token.Spelled.writable {t : Token} (h : t.Spelled) : (t.literal.getD .null).Writable := by
  cases ht : t.literal with
  | none => trivial
  | some v => exact h.constant v ht

/-- No expression is printed with an equals sign first, which would extend a `!` before it. -/
theorem Expr.Written.startsPlain {e : Expr} {us : List Token} (h : e.Written us)
    (hs : ∀ t ∈ us, t.Spelled) : StartsPlain e.text := by
  cases h with
  | literal => exact Literal.startsPlain (hs _ List.mem_cons_self).writable
  | var kind => exact ((hs _ List.mem_cons_self).name kind).startsPlain
  | group => exact (StartsPlain.append ⟨'(', [], rfl, by decide⟩ _).append _
  | @unary t op e us =>
    cases op with
    | negate => exact StartsPlain.append ⟨'-', [], rfl, by decide⟩ _
    | not => exact StartsPlain.append ⟨'!', [], rfl, by decide⟩ _
  | assign name =>
    have hname := (hs _ List.mem_cons_self).name name
    exact (hname.startsPlain.append _).append _
  | call callee | get callee | binary callee | logical callee | set callee =>
    have hcallee := callee.startsPlain fun t ht => hs t (by simp [ht])
    simp only [Expr.text, String.append_assoc]
    exact hcallee.append _
termination_by e
decreasing_by
  all_goals
    subst_vars
    simp only [Expr.binary.sizeOf_spec, Expr.call.sizeOf_spec, Expr.get.sizeOf_spec,
      Expr.logical.sizeOf_spec, Expr.set.sizeOf_spec]
    omega

theorem BinaryOp.lexes (op : BinaryOp) (ds : List Char) :
    ∃ kind, Lexes kind op.symbol.toList (' ' :: ds) ∧ kind.isSkipped = false ∧
      Grammar.binaryOp? kind = some op := by
  cases op <;> exact ⟨_, ⟨_, _, rfl, rfl⟩, rfl, rfl⟩

theorem LogicalOp.lexes (op : LogicalOp) (ds : List Char) :
    Lexes op.keyword op.symbol.toList (' ' :: ds) := by
  cases op <;> exact ⟨_, _, rfl, rfl⟩

theorem UnaryOp.lexes (op : UnaryOp) {s : String} (hs : StartsPlain s) (ds : List Char) :
    ∃ kind, Lexes kind op.symbol.toList (s.toList ++ ds) ∧ kind.isSkipped = false ∧
      Grammar.unaryOp? kind = some op := by
  cases op with
  | negate => exact ⟨_, ⟨_, _, rfl, rfl⟩, rfl, rfl⟩
  | not =>
    obtain ⟨c, cs, hcs, hc⟩ := hs
    refine ⟨.bang, ⟨'!', [], rfl, ?_⟩, rfl, rfl⟩
    rw [hcs]
    show some (withEqual (c :: (cs ++ ds)) .bang .bangEqual) = _
    rw [withEqual, List.head?_cons, if_neg (by simpa using hc)]
    rfl

section Expressions

variable {line : Nat} {e l r : Expr} {name : String}

theorem readsBack_var (h : IsName name) : (Expr.var line name .unresolved).ReadsBack := by
  intro rest hrest
  refine (Scans.name h hrest .nil).mono ?_
  rintro _ ⟨n, _, rfl, ⟨hn, rfl⟩, rfl⟩
  exact ⟨.var n.line n.lexeme .unresolved, .var hn, rfl⟩

theorem readsBack_group (he : e.ReadsBack) : (Expr.group line e).ReadsBack := by
  intro rest hrest
  have htext : (Expr.group line e).text.toList ++ rest =
      '(' :: (e.text.toList ++ ')' :: rest) := by simp
  rw [htext]
  refine (Scans.symbol rfl rfl ((he _ (breaks_cons rfl (by decide))).append
    (Scans.symbol rfl rfl .nil))).mono ?_
  rintro _ ⟨l, _, rfl, hl, us, _, rfl, ⟨e', he', hsame⟩, r, _, rfl, hr, rfl⟩
  exact ⟨.group l.line e', .group hl he' hr, congrArg (Expr.group 0) hsame⟩

theorem readsBack_call {args : List Expr} (he : e.ReadsBack) (hargs : ∀ a ∈ args, a.ReadsBack) :
    (Expr.call line e args).ReadsBack := by
  intro rest hrest
  have htext : (Expr.call line e args).text.toList ++ rest = e.text.toList ++
      '(' :: ((", ".intercalate (args.map Expr.text)).toList ++ ')' :: rest) := by simp
  rw [htext]
  refine ((he _ (breaks_cons rfl (by decide))).append (Scans.symbol rfl rfl
    ((readsBack_listed hargs (breaks_cons rfl (by decide))).append
      (Scans.symbol rfl rfl .nil)))).mono ?_
  rintro _ ⟨us, _, rfl, ⟨e', he', hsame⟩, l, _, rfl, hl, vs, _, rfl, ⟨args', has, hsames⟩, r, _,
    rfl, hr, rfl⟩
  exact ⟨.call l.line e' args', by simpa using Expr.Written.call he' hl has hr,
    congrArg₂ (Expr.call 0) hsame (forall₂_reread hsames)⟩

/-- The point before the name of a member does not extend a number before it. -/
theorem readsBack_get (h : IsName name) (he : e.ReadsBack) : (Expr.get line name e).ReadsBack := by
  intro rest hrest
  have htext : (Expr.get line name e).text.toList ++ rest =
      e.text.toList ++ '.' :: (name.toList ++ rest) := by simp
  rw [htext]
  refine ((he _ (breaks_point h.1)).append
    (Scans.symbol rfl rfl (Scans.name h hrest .nil))).mono ?_
  rintro _ ⟨us, _, rfl, ⟨e', he', hsame⟩, d, _, rfl, hd, n, _, rfl, ⟨hn, rfl⟩, rfl⟩
  exact ⟨.get d.line n.lexeme e', .get he' hd hn, congrArg (Expr.get 0 n.lexeme) hsame⟩

theorem readsBack_unary {op : UnaryOp} (hplain : StartsPlain e.text) (he : e.ReadsBack) :
    (Expr.unary line op e).ReadsBack := by
  intro rest hrest
  obtain ⟨kind, hlex, hkind, hop⟩ := op.lexes hplain rest
  have htext : (Expr.unary line op e).text.toList ++ rest =
      op.symbol.toList ++ (e.text.toList ++ rest) := by simp
  rw [htext]
  refine (Scans.lexeme hlex hkind (he rest hrest)).mono ?_
  rintro _ ⟨t, us, rfl, ⟨ht, -⟩, e', he', hsame⟩
  exact ⟨.unary t.line op e', .unary (by rw [ht, hop]) he', congrArg (Expr.unary 0 op) hsame⟩

theorem readsBack_binary {op : BinaryOp} (hl : l.ReadsBack) (hr : r.ReadsBack) :
    (Expr.binary line op l r).ReadsBack := by
  intro rest hrest
  obtain ⟨kind, hlex, hkind, hop⟩ := op.lexes (r.text.toList ++ rest)
  have htext : (Expr.binary line op l r).text.toList ++ rest = l.text.toList ++
      ' ' :: (op.symbol.toList ++ ' ' :: (r.text.toList ++ rest)) := by simp
  rw [htext]
  refine ((hl _ (breaks_space _)).append
    (Scans.lexeme hlex hkind (hr rest hrest).space).space).mono ?_
  rintro _ ⟨us, _, rfl, ⟨l', hl', hlsame⟩, t, vs, rfl, ⟨ht, -⟩, r', hr', hrsame⟩
  exact ⟨.binary t.line op l' r', .binary hl' (by rw [ht, hop]) hr',
    congrArg₂ (Expr.binary 0 op) hlsame hrsame⟩

theorem readsBack_logical {op : LogicalOp} (hl : l.ReadsBack) (hr : r.ReadsBack) :
    (Expr.logical line op l r).ReadsBack := by
  intro rest hrest
  have hkind : op.keyword.isSkipped = false := by cases op <;> rfl
  have htext : (Expr.logical line op l r).text.toList ++ rest = l.text.toList ++
      ' ' :: (op.symbol.toList ++ ' ' :: (r.text.toList ++ rest)) := by simp
  rw [htext]
  refine ((hl _ (breaks_space _)).append
    (Scans.lexeme (op.lexes _) hkind (hr rest hrest).space).space).mono ?_
  rintro _ ⟨us, _, rfl, ⟨l', hl', hlsame⟩, t, vs, rfl, ⟨ht, -⟩, r', hr', hrsame⟩
  exact ⟨.logical t.line op l' r', .logical hl' ht hr',
    congrArg₂ (Expr.logical 0 op) hlsame hrsame⟩

theorem readsBack_assign (h : IsName name) (he : e.ReadsBack) :
    (Expr.assign line name .unresolved e).ReadsBack := by
  intro rest hrest
  have htext : (Expr.assign line name .unresolved e).text.toList ++ rest =
      name.toList ++ ' ' :: '=' :: ' ' :: (e.text.toList ++ rest) := by simp
  rw [htext]
  refine (Scans.assigned h (he rest hrest)).mono ?_
  rintro _ ⟨n, q, us, rfl, ⟨hn, rfl⟩, hq, e', he', hsame⟩
  exact ⟨.assign n.line n.lexeme .unresolved e', .assign hn hq he',
    congrArg (Expr.assign 0 n.lexeme .unresolved) hsame⟩

theorem readsBack_set (h : IsName name) (hl : l.ReadsBack) (hr : r.ReadsBack) :
    (Expr.set line name l r).ReadsBack := by
  intro rest hrest
  have htext : (Expr.set line name l r).text.toList ++ rest = l.text.toList ++
      '.' :: (name.toList ++ ' ' :: '=' :: ' ' :: (r.text.toList ++ rest)) := by simp
  rw [htext]
  refine ((hl _ (breaks_point h.1)).append
    (Scans.symbol rfl rfl (Scans.assigned h (hr rest hrest)))).mono ?_
  rintro _ ⟨us, _, rfl, ⟨l', hl', hlsame⟩, d, _, rfl, hd, n, q, vs, rfl, ⟨hn, rfl⟩, hq, r', hr',
    hrsame⟩
  exact ⟨.set d.line n.lexeme l' r', .set hl' hd hn hq hr',
    congrArg₂ (Expr.set 0 n.lexeme) hlsame hrsame⟩

end Expressions

/-- **An expression reads back** if its tokens were scanned. -/
theorem Expr.Written.readsBack {e : Expr} {us : List Token} (h : e.Written us)
    (hs : ∀ t ∈ us, t.Spelled) : e.ReadsBack := by
  cases h with
  | literal => exact Literal.readsBack (hs _ List.mem_cons_self).writable
  | @var t kind => exact readsBack_var ((hs _ List.mem_cons_self).name kind)
  | group _ inner => exact readsBack_group (inner.readsBack fun t ht => hs t (by simp [ht]))
  | call callee _ arguments =>
    refine readsBack_call (callee.readsBack fun t ht => hs t (by simp [ht])) ?_
    intro a ha
    obtain ⟨ws, hws, hsub⟩ := arguments.exists_item a ha
    exact hws.readsBack fun t ht => hs t (by simp [hsub ht])
  | @get d n _ _ object _ name =>
    exact readsBack_get ((hs n (by simp)).name name)
      (object.readsBack fun t ht => hs t (by simp [ht]))
  | @unary _ _ _ us _ operand =>
    have hspelled : ∀ t ∈ us, t.Spelled := fun t ht => hs t (by simp [ht])
    exact readsBack_unary (operand.startsPlain hspelled) (operand.readsBack hspelled)
  | binary left _ right =>
    exact readsBack_binary (left.readsBack fun t ht => hs t (by simp [ht]))
      (right.readsBack fun t ht => hs t (by simp [ht]))
  | logical left _ right =>
    exact readsBack_logical (left.readsBack fun t ht => hs t (by simp [ht]))
      (right.readsBack fun t ht => hs t (by simp [ht]))
  | @assign n _ _ _ name _ value =>
    exact readsBack_assign ((hs n (by simp)).name name)
      (value.readsBack fun t ht => hs t (by simp [ht]))
  | @set _ n _ _ _ _ _ object _ name _ value =>
    exact readsBack_set ((hs n (by simp)).name name)
      (object.readsBack fun t ht => hs t (by simp [ht]))
      (value.readsBack fun t ht => hs t (by simp [ht]))
termination_by e
decreasing_by
  all_goals
    subst_vars
    simp only [Expr.assign.sizeOf_spec, Expr.binary.sizeOf_spec, Expr.call.sizeOf_spec,
      Expr.get.sizeOf_spec, Expr.group.sizeOf_spec, Expr.logical.sizeOf_spec, Expr.set.sizeOf_spec,
      Expr.unary.sizeOf_spec]
    (try have hsize := List.sizeOf_lt_of_mem ‹_ ∈ _›)
    omega

/-! ## Statements -/

/-- What is read back of a statement. -/
def Stmt.Reread (s s' : Stmt) : Prop :=
  s'.unlinedWith (.literal 0) = s.unlinedWith Literal.reread

abbrev Stmt.ReadsBack (s : Stmt) : Prop := ReadsBackAs Stmt.text Stmt.Written Stmt.Reread s

theorem forall₂_rereadStmt {ss ss' : List Stmt} (h : List.Forall₂ Stmt.Reread ss ss') :
    Stmt.allUnlinedWith (.literal 0) ss' = Stmt.allUnlinedWith Literal.reread ss := by
  induction h with
  | nil => rfl
  | cons h _ ih => exact congrArg₂ List.cons h ih

theorem scans_braced {ss : List Stmt} (h : ∀ s ∈ ss, s.ReadsBack) (rest : List Char) :
    Scans (fun us => ∃ (l : Token) (vs : List Token) (r : Token) (ss' : List Stmt),
      us = l :: vs ++ [r] ∧ l.kind = .leftBrace ∧ Chained Stmt.Written ss' vs ∧
      r.kind = .rightBrace ∧
      Stmt.allUnlinedWith (.literal 0) ss' = Stmt.allUnlinedWith Literal.reread ss)
      ((Stmt.bracedText ss).toList ++ rest) rest := by
  have htext : (Stmt.bracedText ss).toList ++ rest = '\x7b' ::
      ((ss.map Stmt.text).flatMap (" ".toList ++ ·.toList) ++ ' ' :: '\x7d' :: rest) := by
    simp [Stmt.bracedText, Stmt.toList_tailText]
  rw [htext]
  refine (Scans.symbol rfl rfl ((readsBack_chained h (breaks_space _)).append
    (Scans.symbol rfl rfl .nil).space)).mono ?_
  rintro _ ⟨l, _, rfl, hl, vs, _, rfl, ⟨ss', hss, hsames⟩, r, _, rfl, hr, rfl⟩
  exact ⟨l, vs, r, ss', rfl, hl, hss, hr, forall₂_rereadStmt hsames⟩

section Statements

variable {line : Nat} {c e : Expr} {s y n : Stmt} {ss : List Stmt} {name : String}

theorem readsBack_block (hss : ∀ s ∈ ss, s.ReadsBack) : (Stmt.block line ss).ReadsBack := by
  intro rest hrest
  rw [Stmt.text]
  refine (scans_braced hss rest).mono ?_
  rintro _ ⟨l, vs, r, ss', rfl, hl, hss', hr, hsame⟩
  exact ⟨.block l.line ss', .block hl hss' hr, congrArg (Stmt.block 0) hsame⟩

theorem readsBack_expression (he : e.ReadsBack) : (Stmt.expression line e).ReadsBack := by
  intro rest hrest
  have htext : (Stmt.expression line e).text.toList ++ rest = e.text.toList ++ ';' :: rest := by
    simp
  rw [htext]
  refine ((he _ (breaks_cons rfl (by decide))).append (Scans.symbol rfl rfl .nil)).mono ?_
  rintro _ ⟨_, _, rfl, ⟨e', he', hsame⟩, q, _, rfl, hq, rfl⟩
  obtain ⟨t, us, rfl, -⟩ := he'.head
  exact ⟨.expression t.line e', .expression he' hq, congrArg (Stmt.expression 0) hsame⟩

theorem readsBack_function {params : List String} (hname : IsName name)
    (hparams : ∀ p ∈ params, IsName p) (hss : ∀ s ∈ ss, s.ReadsBack) :
    (Stmt.function line name params ss).ReadsBack := by
  intro rest hrest
  have htext : (Stmt.function line name params ss).text.toList ++ rest =
      ['f', 'u', 'n'] ++ ' ' :: (name.toList ++ '(' :: ((", ".intercalate (params.map id)).toList ++
        ')' :: ' ' :: ((Stmt.bracedText ss).toList ++ rest))) := by simp
  rw [htext]
  refine (Scans.keyword ⟨_, _, rfl, rfl⟩ rfl (Scans.name hname (breaks_cons rfl (by decide))
    (Scans.symbol rfl rfl ((readsBack_listed (fun p hp => (hparams p hp).readsBack)
      (breaks_cons rfl (by decide))).append
        (Scans.symbol rfl rfl (scans_braced hss rest).space))))).mono ?_
  rintro _ ⟨f, _, rfl, hf, n, _, rfl, ⟨hn, rfl⟩, l, _, rfl, hl, us, _, rfl,
    ⟨params', hus, hparams'⟩, r, _, rfl, hr, b, vs, c, ss', rfl, hb, hss', hc, hsame⟩
  obtain rfl : params = params' := List.forall₂_eq_eq_eq ▸ hparams'
  exact ⟨.function f.line n.lexeme params ss',
    by simpa using Stmt.Written.function hf hn hl hus hr hb hss' hc,
    congrArg (Stmt.function 0 n.lexeme params) hsame⟩

theorem readsBack_ifThen (hc : c.ReadsBack) (hy : y.ReadsBack) :
    (Stmt.ifThen line c y).ReadsBack := by
  intro rest hrest
  have htext : (Stmt.ifThen line c y).text.toList ++ rest =
      ['i', 'f'] ++ ' ' :: (c.text.toList ++ ' ' :: (y.text.toList ++ rest)) := by simp
  rw [htext]
  refine (Scans.keyword ⟨_, _, rfl, rfl⟩ rfl ((hc _ (breaks_space _)).append
    (hy rest hrest).space)).mono ?_
  rintro _ ⟨t, _, rfl, ht, us, vs, rfl, ⟨c', hc', hcsame⟩, y', hy', hysame⟩
  exact ⟨.ifThen t.line c' y', .ifThen ht hc' hy', congrArg₂ (Stmt.ifThen 0) hcsame hysame⟩

theorem readsBack_ifElse (hc : c.ReadsBack) (hy : y.ReadsBack) (hn : n.ReadsBack) :
    (Stmt.ifElse line c y n).ReadsBack := by
  intro rest hrest
  have htext : (Stmt.ifElse line c y n).text.toList ++ rest =
      ['i', 'f'] ++ ' ' :: (c.text.toList ++ ' ' :: (y.text.toList ++
        ' ' :: (['e', 'l', 's', 'e'] ++ ' ' :: (n.text.toList ++ rest)))) := by simp
  rw [htext]
  refine (Scans.keyword ⟨_, _, rfl, rfl⟩ rfl ((hc _ (breaks_space _)).append
    ((hy _ (breaks_space _)).append
      (Scans.keyword ⟨_, _, rfl, rfl⟩ rfl (hn rest hrest)).space).space)).mono ?_
  rintro _ ⟨t, _, rfl, ht, us, _, rfl, ⟨c', hc', hcsame⟩, vs, _, rfl, ⟨y', hy', hysame⟩, e, ws, rfl,
    he, n', hn', hnsame⟩
  have hsame := congr (congrArg₂ (Stmt.ifElse 0) hcsame hysame) hnsame
  exact ⟨.ifElse t.line c' y' n', by simpa using Stmt.Written.ifElse ht hc' hy' he hn', hsame⟩

theorem readsBack_giveBackNothing : (Stmt.giveBack line none).ReadsBack := by
  intro rest hrest
  have htext : (Stmt.giveBack line none).text.toList ++ rest =
      ['r', 'e', 't', 'u', 'r', 'n'] ++ ';' :: rest := by simp
  have hkeyword : Lexes .kwReturn ['r', 'e', 't', 'u', 'r', 'n'] (';' :: rest) := ⟨_, _, rfl, rfl⟩
  rw [htext]
  refine (Scans.lexeme hkeyword rfl (Scans.symbol rfl rfl .nil)).mono ?_
  rintro _ ⟨t, _, rfl, ⟨ht, -⟩, q, _, rfl, hq, rfl⟩
  exact ⟨.giveBack t.line none, .giveBackNothing ht hq, rfl⟩

theorem readsBack_giveBack (he : e.ReadsBack) : (Stmt.giveBack line (some e)).ReadsBack := by
  intro rest hrest
  have htext : (Stmt.giveBack line (some e)).text.toList ++ rest =
      ['r', 'e', 't', 'u', 'r', 'n'] ++ ' ' :: (e.text.toList ++ ';' :: rest) := by simp
  rw [htext]
  refine (Scans.keyword ⟨_, _, rfl, rfl⟩ rfl ((he _ (breaks_cons rfl (by decide))).append
    (Scans.symbol rfl rfl .nil))).mono ?_
  rintro _ ⟨t, _, rfl, ht, us, _, rfl, ⟨e', he', hsame⟩, q, _, rfl, hq, rfl⟩
  exact ⟨.giveBack t.line (some e'), .giveBack ht he' hq,
    congrArg (fun e => Stmt.giveBack 0 (some e)) hsame⟩

theorem readsBack_declareNull (h : IsName name) : (Stmt.declare line name none).ReadsBack := by
  intro rest hrest
  have htext : (Stmt.declare line name none).text.toList ++ rest =
      ['v', 'a', 'r'] ++ ' ' :: (name.toList ++ ';' :: rest) := by simp
  rw [htext]
  refine (Scans.keyword ⟨_, _, rfl, rfl⟩ rfl (Scans.name h (breaks_cons rfl (by decide))
    (Scans.symbol rfl rfl .nil))).mono ?_
  rintro _ ⟨t, _, rfl, ht, n, _, rfl, ⟨hn, rfl⟩, q, _, rfl, hq, rfl⟩
  exact ⟨.declare t.line n.lexeme none, .declareNull ht hn hq, rfl⟩

theorem readsBack_declare (h : IsName name) (he : e.ReadsBack) :
    (Stmt.declare line name (some e)).ReadsBack := by
  intro rest hrest
  have htext : (Stmt.declare line name (some e)).text.toList ++ rest =
      ['v', 'a', 'r'] ++ ' ' :: (name.toList ++ ' ' :: '=' :: ' ' :: (e.text.toList ++
        ';' :: rest)) := by simp
  rw [htext]
  refine (Scans.keyword ⟨_, _, rfl, rfl⟩ rfl (Scans.assigned h
    ((he _ (breaks_cons rfl (by decide))).append (Scans.symbol rfl rfl .nil)))).mono ?_
  rintro _ ⟨t, _, rfl, ht, n, m, _, rfl, ⟨hn, rfl⟩, hm, us, _, rfl, ⟨e', he', hsame⟩, q, _, rfl, hq,
    rfl⟩
  exact ⟨.declare t.line n.lexeme (some e'), .declare ht hn hm he' hq,
    congrArg (fun e => Stmt.declare 0 n.lexeme (some e)) hsame⟩

theorem readsBack_whileLoop (hc : c.ReadsBack) (hs : s.ReadsBack) :
    (Stmt.whileLoop line c s).ReadsBack := by
  intro rest hrest
  have htext : (Stmt.whileLoop line c s).text.toList ++ rest =
      ['w', 'h', 'i', 'l', 'e'] ++ ' ' :: (c.text.toList ++ ' ' :: (s.text.toList ++ rest)) := by
    simp
  rw [htext]
  refine (Scans.keyword ⟨_, _, rfl, rfl⟩ rfl ((hc _ (breaks_space _)).append
    (hs rest hrest).space)).mono ?_
  rintro _ ⟨t, _, rfl, ht, us, vs, rfl, ⟨c', hc', hcsame⟩, s', hs', hssame⟩
  exact ⟨.whileLoop t.line c' s', .whileLoop ht hc' hs', congrArg₂ (Stmt.whileLoop 0) hcsame hssame⟩

theorem readsBack_forLoop (h : IsName name) (he : e.ReadsBack) (hs : s.ReadsBack) :
    (Stmt.forLoop line name e s).ReadsBack := by
  intro rest hrest
  have htext : (Stmt.forLoop line name e s).text.toList ++ rest =
      ['f', 'o', 'r'] ++ ' ' :: (name.toList ++ ' ' :: (['i', 'n'] ++ ' ' :: (e.text.toList ++
        ' ' :: (s.text.toList ++ rest)))) := by simp
  rw [htext]
  refine (Scans.keyword ⟨_, _, rfl, rfl⟩ rfl (Scans.name h (breaks_space _)
    (Scans.keyword ⟨_, _, rfl, rfl⟩ rfl ((he _ (breaks_space _)).append
      (hs rest hrest).space)).space)).mono ?_
  rintro _ ⟨t, _, rfl, ht, n, _, rfl, ⟨hn, rfl⟩, i, _, rfl, hi, us, vs, rfl, ⟨e', he', hesame⟩, s',
    hs', hssame⟩
  exact ⟨.forLoop t.line n.lexeme e' s', .forLoop ht hn hi he' hs',
    congrArg₂ (Stmt.forLoop 0 n.lexeme) hesame hssame⟩

end Statements

theorem Listed.isName {params : List String} {us : List Token}
    (h : Listed NameWritten params us) (hs : ∀ t ∈ us, t.Spelled) : ∀ p ∈ params, IsName p := by
  intro p hp
  obtain ⟨vs, ⟨t, rfl, ht, rfl⟩, hsub⟩ := h.exists_item p hp
  exact (hs t (hsub List.mem_cons_self)).name ht

/-- **A statement reads back** if its tokens were scanned. -/
theorem Stmt.Written.readsBack {s : Stmt} {us : List Token} (h : s.Written us)
    (hs : ∀ t ∈ us, t.Spelled) : s.ReadsBack := by
  cases h with
  | block _ body =>
    refine readsBack_block fun s hmem => ?_
    obtain ⟨vs, hvs, hsub⟩ := body.exists_item s hmem
    exact hvs.readsBack fun t ht => hs t (by simp [hsub ht])
  | expression expr =>
    exact readsBack_expression (expr.readsBack fun t ht => hs t (List.mem_append_left _ ht))
  | @function _ n _ _ _ _ _ _ us _ _ name _ parameters _ _ body =>
    refine readsBack_function ((hs n (by simp)).name name)
      (parameters.isName fun t ht => hs t (by simp [ht])) fun s hmem => ?_
    obtain ⟨ws, hws, hsub⟩ := body.exists_item s hmem
    exact hws.readsBack fun t ht => hs t (by simp [hsub ht])
  | @shortFunction _ n _ _ _ _ _ _ _ name _ parameters _ body =>
    refine readsBack_function ((hs n (by simp)).name name)
      (parameters.isName fun t ht => hs t (by simp [ht])) fun s hmem => ?_
    rw [List.mem_singleton.mp hmem]
    exact body.readsBack fun t ht => hs t (by simp [ht])
  | ifThen _ condition yes =>
    exact readsBack_ifThen (condition.readsBack fun t ht => hs t (by simp [ht]))
      (yes.readsBack fun t ht => hs t (by simp [ht]))
  | ifElse _ condition yes _ no =>
    exact readsBack_ifElse (condition.readsBack fun t ht => hs t (by simp [ht]))
      (yes.readsBack fun t ht => hs t (by simp [ht])) (no.readsBack fun t ht => hs t (by simp [ht]))
  | giveBackNothing => exact readsBack_giveBackNothing
  | giveBack _ value => exact readsBack_giveBack (value.readsBack fun t ht => hs t (by simp [ht]))
  | @declareNull _ n _ _ name => exact readsBack_declareNull ((hs n (by simp)).name name)
  | @declare _ n _ _ _ _ _ name _ initial =>
    exact readsBack_declare ((hs n (by simp)).name name)
      (initial.readsBack fun t ht => hs t (by simp [ht]))
  | whileLoop _ condition body =>
    exact readsBack_whileLoop (condition.readsBack fun t ht => hs t (by simp [ht]))
      (body.readsBack fun t ht => hs t (by simp [ht]))
  | @forLoop _ n _ _ _ _ _ _ name _ iterable body =>
    exact readsBack_forLoop ((hs n (by simp)).name name)
      (iterable.readsBack fun t ht => hs t (by simp [ht]))
      (body.readsBack fun t ht => hs t (by simp [ht]))
termination_by s
decreasing_by
  all_goals
    subst_vars
    simp only [Stmt.block.sizeOf_spec, Stmt.function.sizeOf_spec, Stmt.ifThen.sizeOf_spec,
      Stmt.ifElse.sizeOf_spec, Stmt.whileLoop.sizeOf_spec, Stmt.forLoop.sizeOf_spec,
      List.cons.sizeOf_spec]
    (try have hsize := List.sizeOf_lt_of_mem ‹_ ∈ _›)
    omega

/-! ## Programs -/

theorem tree_eq_ok {source : String} {ss : List Stmt} :
    tree source = .ok ss ↔ ∃ ts, scan source = .ok ts ∧ Grammar.parse ts = .ok ss := by
  unfold tree
  cases scan source with
  | error e => simp
  | ok ts => cases hparse : Grammar.parse ts <;> simp [hparse]

theorem scans_programText {ss : List Stmt} (h : ∀ s ∈ ss, s.ReadsBack) :
    Scans (fun us => ∃ ss', Chained Stmt.Written ss' us ∧
      Stmt.unlined ss' = Stmt.allUnlinedWith Literal.reread ss)
      (Stmt.programText ss).toList [] := by
  have hchained : Scans (fun us => ∃ ss', Chained Stmt.Written ss' us ∧
      List.Forall₂ Stmt.Reread ss ss') (Stmt.programText ss).toList [] := by
    have hspaced := readsBack_chained h breaks_nil
    cases ss with
    | nil => exact hspaced
    | cons s ss =>
      rw [Stmt.programText, List.map_cons, toList_intercalate_cons]
      rw [List.map_cons, List.flatMap_cons, List.append_nil, List.append_assoc] at hspaced
      exact scans_space.mp hspaced
  refine hchained.mono ?_
  rintro us ⟨ss', hss, hsames⟩
  exact ⟨ss', hss, forall₂_rereadStmt hsames⟩

theorem Stmt.limits_of_reread {ss ss' : List Stmt}
    (h : Stmt.unlined ss' = Stmt.allUnlinedWith Literal.reread ss) :
    (Stmt.AllWellFormed ss' ↔ Stmt.AllWellFormed ss) ∧ Stmt.bodyDepth ss' = Stmt.bodyDepth ss := by
  have hliteral : ∀ v, (Expr.literal 0 v).IsAtom := fun v => .literal
  constructor
  · rw [← Stmt.allWellFormed_unlinedWith hliteral ss', ← Stmt.unlined, h,
      Stmt.allWellFormed_unlinedWith Literal.isAtom_reread]
  · rw [← Stmt.bodyDepth_unlinedWith hliteral ss', ← Stmt.unlined, h,
      Stmt.bodyDepth_unlinedWith Literal.isAtom_reread]

/-- The program read back is the same up to lines exactly if no constant became a name. -/
theorem Stmt.unlined_eq_iff_of_reread {ss ss' : List Stmt}
    (h : Stmt.unlined ss' = Stmt.allUnlinedWith Literal.reread ss) :
    Stmt.unlined ss' = Stmt.unlined ss ↔ ∀ x, .number x ∈ Stmt.allLiterals ss → x.isFinite := by
  rw [h, Stmt.unlined, Stmt.allUnlinedWith_eq_iff]
  simp only [Literal.reread_eq_iff]
  constructor
  · intro hall x hx
    exact hall _ hx x rfl
  · rintro hall _ hv x rfl
    exact hall x hv

/-- **Printing and reading back.** The printed text of a program that was parsed is parsed too, and
gives the same tree up to lines exactly if every number literal of the program is finite. -/
theorem tree_programText {source : String} {ss : List Stmt} (h : tree source = .ok ss) :
    ∃ ss', tree (Stmt.programText ss) = .ok ss' ∧
      (Stmt.unlined ss' = Stmt.unlined ss ↔
        ∀ x, .number x ∈ Stmt.allLiterals ss → x.isFinite) := by
  obtain ⟨ts, hscan, hparse⟩ := tree_eq_ok.mp h
  obtain ⟨used, rest, rfl, hchain, -⟩ := Grammar.parse_eq_ok.mp hparse
  obtain ⟨hwritten, hwell, hdepth⟩ := Grammar.chained_sentence_iff.mp hchain
  have hspelled := spelled_of_scanFrom hscan
  have hreads : ∀ s ∈ ss, s.ReadsBack := by
    intro s hmem
    obtain ⟨us, hus, hsub⟩ := hwritten.exists_item s hmem
    exact hus.readsBack fun t ht => hspelled t (List.mem_append_left _ (hsub ht))
  obtain ⟨us, line, hscan', ss', hwritten', hsame⟩ := scans_programText hreads 1
  obtain ⟨hwell', hdepth'⟩ := Stmt.limits_of_reread hsame
  refine ⟨ss', tree_eq_ok.mpr ⟨us ++ [.endOfInput line], ?_, ?_⟩,
    Stmt.unlined_eq_iff_of_reread hsame⟩
  · rw [scan, hscan', scanFrom]
    rfl
  · refine Grammar.parse_eq_ok.mpr ⟨us, [.endOfInput line], rfl, ?_, ?_⟩
    · exact Grammar.chained_sentence_iff.mpr ⟨hwritten', hwell'.mpr hwell, hdepth'.trans_le hdepth⟩
    · rintro _ ⟨⟩
      rfl

/-- A body right behind a condition that ends with a name, and operators right before their
operands. -/
theorem tree_programText_conditional :
    ∃ ss ss', tree "if !a f(-1.5);" = .ok ss ∧ tree (Stmt.programText ss) = .ok ss' ∧
      Stmt.unlined ss' = Stmt.unlined ss := by
  have hscan : scan "if !a f(-1.5);" =
      .ok [⟨.kwIf, "if", none, 1⟩, ⟨.bang, "!", none, 1⟩, ⟨.identifier, "a", none, 1⟩,
        ⟨.identifier, "f", none, 1⟩, ⟨.leftParen, "(", none, 1⟩, ⟨.minus, "-", none, 1⟩,
        ⟨.number, "1.5", some (.number ⟨0x3ff8000000000000⟩), 1⟩, ⟨.rightParen, ")", none, 1⟩,
        ⟨.semicolon, ";", none, 1⟩, .endOfInput 1] := by
    have hnumber : (Decimal.ofDigits ['1'] ['5']).toNumber = ⟨0x3ff8000000000000⟩ := by decide
    simp [scan, scanFrom, linesPassed, lexeme?, numberLength, runLength, withEqual, literal?,
      TokenKind.ofWord, TokenKind.keywords, TokenKind.isSkipped, isBlank, List.lookup_cons, hnumber]
  have hcondition := Expr.Written.unary (t := ⟨.bang, "!", none, 1⟩) rfl
    (.var (t := ⟨.identifier, "a", none, 1⟩) rfl)
  have hargument := Expr.Written.unary (t := ⟨.minus, "-", none, 1⟩) rfl
    (.literal (t := ⟨.number, "1.5", some (.number ⟨0x3ff8000000000000⟩), 1⟩) rfl)
  have hcall := Expr.Written.call (l := ⟨.leftParen, "(", none, 1⟩)
    (r := ⟨.rightParen, ")", none, 1⟩) (.var (t := ⟨.identifier, "f", none, 1⟩) rfl) rfl
    (.cons hargument .nil) rfl
  have hwritten := Stmt.Written.ifThen (t := ⟨.kwIf, "if", none, 1⟩) rfl hcondition
    (.expression (q := ⟨.semicolon, ";", none, 1⟩) hcall rfl)
  have htree : tree "if !a f(-1.5);" =
      .ok [.ifThen 1 (.unary 1 .not (.var 1 "a" .unresolved))
        (.expression 1 (.call 1 (.var 1 "f" .unresolved)
          [.unary 1 .negate (.literal 1 (.number ⟨0x3ff8000000000000⟩))]))] := by
    refine tree_eq_ok.mpr ⟨_, hscan, Grammar.parse_eq_ok.mpr ⟨_, [.endOfInput 1], rfl,
      Grammar.chained_sentence_iff.mpr ⟨.cons hwritten .nil, ?_, by decide⟩, ?_⟩⟩
    · simp [Stmt.AllWellFormed, Stmt.WellFormed, Stmt.Follows, Stmt.isDeclaration, Stmt.attaches,
        Expr.WellFormed, Expr.AllWellFormed, Expr.attaches, Expr.level, maxArguments]
    · simp [Token.endOfInput]
  obtain ⟨ss', htree', hiff⟩ := tree_programText htree
  refine ⟨_, ss', htree, htree', hiff.mpr fun x hx => ?_⟩
  obtain rfl : x = ⟨0x3ff8000000000000⟩ := by
    simpa [Stmt.allLiterals, Stmt.literals, Expr.literals, Expr.allLiterals] using hx
  decide

end Scriptlet
