import Scriptlet.Proofs.Token.Scanning

/-!
# The layout of a text

Scanning loses nothing: what stands between the tokens of a text only separates them. Newlines
stand there as well as inside strings, and all of them count for the lines of the tokens behind.

* `Spacing`: text that holds no token, given what follows it: blanks, line breaks and comments.
* `LaidOut`: **a text and its tokens**, with the space before each token and the line it is on.
* `laidOut_scanFrom`: scanning gives the tokens that a text is laid out as.
* `scan_layout`: **scanning is lossless, and lines are exact**.
-/

namespace Scriptlet

/-! ## Space -/

/-- **Text that holds no token**, before `rest`. A comment runs up to a newline or to the end of the
whole text. -/
inductive Spacing : List Char → List Char → Prop
  | nil {rest : List Char} : Spacing [] rest
  | separator {c : Char} {cs rest : List Char} (separates : c ∈ [' ', '\t', '\r', '\x0c', '\n'])
      (more : Spacing cs rest) : Spacing (c :: cs) rest
  | comment {text cs rest : List Char} (single : '\n' ∉ text)
      (ends : ∀ c ∈ (cs ++ rest).head?, c = '\n') (more : Spacing cs rest) :
    Spacing ('/' :: '/' :: text ++ cs) rest

theorem Spacing.append {cs ds rest : List Char} (h : Spacing cs (ds ++ rest))
    (h' : Spacing ds rest) : Spacing (cs ++ ds) rest := by
  generalize hfollows : ds ++ rest = follows at h
  induction h with
  | nil => exact h'
  | separator separates _ ih => exact .separator separates (ih hfollows)
  | comment single ends _ ih =>
    subst hfollows
    rw [List.append_assoc]
    exact .comment single (by rwa [List.append_assoc]) (ih rfl)

theorem spacing_of_separators {cs : List Char}
    (h : ∀ c ∈ cs, c ∈ [' ', '\t', '\r', '\x0c', '\n']) (rest : List Char) : Spacing cs rest := by
  induction cs with
  | nil => exact .nil
  | cons c cs ih =>
    obtain ⟨hc, hcs⟩ := List.forall_mem_cons.mp h
    exact .separator hc (ih hcs)

theorem mem_separators_of_isBlank {c : Char} (h : isBlank c) :
    c ∈ [' ', '\t', '\r', '\x0c', '\n'] := by
  simp only [isBlank, Bool.or_eq_true, beq_iff_eq] at h
  obtain ((rfl | rfl) | rfl) | rfl := h <;> decide

theorem spacing_comment (cs : List Char) :
    Spacing ('/' :: '/' :: cs.takeWhile (· != '\n')) (cs.dropWhile (· != '\n')) := by
  have hcomment : Spacing ('/' :: '/' :: cs.takeWhile (· != '\n') ++ [])
      (cs.dropWhile (· != '\n')) := by
    refine .comment (fun hmem => ?_) (fun c hc => ?_) .nil
    · simpa using List.mem_takeWhile_imp hmem
    · have hstop := List.head?_dropWhile_not (· != '\n') cs
      rw [List.nil_append] at hc
      rw [Option.mem_def.mp hc] at hstop
      simpa using hstop
  rwa [List.append_nil] at hcomment

theorem drop_runLength (p : Char → Bool) (cs : List Char) :
    cs.drop (runLength p cs) = cs.dropWhile p := by
  have hdrop : (cs.takeWhile p ++ cs.dropWhile p).drop (runLength p cs) = cs.dropWhile p :=
    List.drop_left
  rwa [List.takeWhile_append_dropWhile] at hdrop

/-- **A lexeme that is passed over** is space. -/
theorem spacing_of_lexeme? {c : Char} {cs : List Char} {kind : TokenKind} {n : Nat}
    (h : lexeme? c cs = some (kind, n)) (hskip : kind.isSkipped) :
    Spacing (c :: cs.take n) (cs.drop n) := by
  obtain ⟨-, rfl, ⟨ds, rfl⟩, rfl⟩ | ⟨-, hblank, rfl⟩ | ⟨-, rfl, rfl⟩ := skipped_cases h hskip
  · rw [take_runLength, drop_runLength]
    exact spacing_comment ds
  · rw [take_runLength]
    refine spacing_of_separators (List.forall_mem_cons.mpr
      ⟨mem_separators_of_isBlank hblank, fun d hd => ?_⟩) _
    exact mem_separators_of_isBlank (List.mem_takeWhile_imp hd)
  · exact .separator (by decide) .nil

/-! ## Tokens and the space between them -/

/-- **A text laid out as tokens**, from the given line on: each token stands behind some space, on
the line that is reached there. -/
inductive LaidOut : Nat → List Char → List Token → Prop
  | last {line : Nat} {gap : List Char} (space : Spacing gap []) :
    LaidOut line gap [.endOfInput (line + gap.count '\n')]
  | token {line : Nat} {gap rest : List Char} {t : Token} {ts : List Token}
      (kind : t.kind ≠ .endOfInput) (space : Spacing gap (t.lexeme.toList ++ rest))
      (starts : t.line = line + gap.count '\n')
      (more : LaidOut (t.line + t.lexeme.toList.count '\n') rest ts) :
    LaidOut line (gap ++ t.lexeme.toList ++ rest) (t :: ts)

theorem LaidOut.space {line : Nat} {gap cs : List Char} {ts : List Token}
    (hgap : Spacing gap cs) (h : LaidOut (line + gap.count '\n') cs ts) :
    LaidOut line (gap ++ cs) ts := by
  cases h with
  | @last _ gap' space =>
    rw [Nat.add_assoc, ← List.count_append]
    exact .last (Spacing.append (by rwa [List.append_nil]) space)
  | @token _ gap' rest t ts kind space starts more =>
    rw [Nat.add_assoc, ← List.count_append] at starts
    rw [List.append_assoc] at hgap
    rw [← List.append_assoc, ← List.append_assoc]
    exact .token kind (hgap.append space) starts more

/-- **The tokens of a text are those that it is laid out as.** -/
theorem laidOut_scanFrom {line : Nat} {cs : List Char} {ts : List Token}
    (h : scanFrom line cs = .ok ts) : LaidOut line cs ts := by
  fun_induction scanFrom line cs generalizing ts with
  | case1 line =>
    cases h
    exact .last .nil
  | case2 | case3 => cases h
  | case4 line c cs kind n hlex lexeme us hmore hskip =>
    rename_i ih
    cases h
    have hlaid := ih hmore
    rw [linesPassed_eq hlex] at hlaid
    have hspace := LaidOut.space (spacing_of_lexeme? hlex hskip) hlaid
    rwa [List.cons_append, List.take_append_drop] at hspace
  | case5 line c cs kind n hlex lexeme us hmore hskip =>
    rename_i ih
    cases h
    have hlexeme : (String.ofList lexeme).toList = lexeme := String.toList_ofList
    let t : Token := ⟨kind, .ofList lexeme, literal? kind lexeme, line⟩
    have hrest : LaidOut (t.line + t.lexeme.toList.count '\n') (cs.drop n) us := by
      rw [hlexeme, ← linesPassed_eq hlex]
      exact ih hmore
    have htoken : LaidOut line ([] ++ t.lexeme.toList ++ cs.drop n) (t :: us) :=
      .token (lexeme?_ne_endOfInput hlex) .nil rfl hrest
    rwa [hlexeme, List.nil_append, List.cons_append, List.take_append_drop] at htoken

/-! ## Where each token stands -/

/-- The text of tokens, each with the space before it. -/
def joined (pieces : List (List Char × Token)) : List Char :=
  pieces.flatMap fun p => p.1 ++ p.2.lexeme.toList

/-- **Every token in its place**: the text in front of it tells its line. -/
theorem LaidOut.pieces {line : Nat} {cs : List Char} {ts : List Token} (h : LaidOut line cs ts) :
    ∃ pieces last, cs = joined pieces ++ last ∧
      ts = pieces.map Prod.snd ++ [.endOfInput (line + cs.count '\n')] ∧ Spacing last [] ∧
      ∀ before gap t after, pieces = before ++ (gap, t) :: after →
        t.kind ≠ .endOfInput ∧ Spacing gap (t.lexeme.toList ++ (joined after ++ last)) ∧
          t.line = line + (joined before ++ gap).count '\n' := by
  induction h with
  | @last line gap space =>
    refine ⟨[], gap, rfl, rfl, space, fun before gap t after hsplit => ?_⟩
    exact absurd hsplit.symm (List.append_ne_nil_of_right_ne_nil _ (List.cons_ne_nil _ _))
  | @token line gap rest t ts kind space starts more ih =>
    obtain ⟨pieces, last, rfl, rfl, hlast, hplaces⟩ := ih
    refine ⟨(gap, t) :: pieces, last, ?_, ?_, hlast, ?_⟩
    · simp [joined]
    · simp [starts, Nat.add_assoc]
    · intro before gap' t' after hsplit
      cases before with
      | nil =>
        cases hsplit
        exact ⟨kind, space, starts⟩
      | cons p before =>
        obtain ⟨rfl, hrest⟩ := List.cons.inj hsplit
        obtain ⟨hkind, hspace, hline⟩ := hplaces before gap' t' after hrest
        refine ⟨hkind, hspace, hline.trans ?_⟩
        simp [joined, starts, Nat.add_assoc]

/-- **Scanning is lossless, and lines are exact.** A text that can be scanned consists of its
lexemes in order and of the space around them: blanks, line breaks, and comments up to a newline or
the end of the text. One end of input closes the tokens. The line of a token is one more than the
newlines in front of its first character, whether they stand in space or in strings, and that of
the end of input counts all newlines of the text. -/
theorem scan_layout {source : String} {ts : List Token} (h : scan source = .ok ts) :
    ∃ pieces last, source.toList = joined pieces ++ last ∧
      ts = pieces.map Prod.snd ++ [.endOfInput (1 + source.toList.count '\n')] ∧
      Spacing last [] ∧
      ∀ before gap t after, pieces = before ++ (gap, t) :: after →
        t.kind ≠ .endOfInput ∧ Spacing gap (t.lexeme.toList ++ (joined after ++ last)) ∧
          t.line = 1 + (joined before ++ gap).count '\n' :=
  (laidOut_scanFrom h).pieces

/-- A quote in a comment opens no string, and the newline in a string counts for what follows. -/
theorem scan_layout_string :
    ∃ ts, scan "x // '\n'a\nb' y" = .ok ts ∧ ts.map Token.line = [1, 2, 3, 3] ∧
      ∃ pieces last, "x // '\n'a\nb' y".toList = joined pieces ++ last ∧
        ts = pieces.map Prod.snd ++ [.endOfInput 3] ∧ Spacing last [] := by
  have hscan : scan "x // '\n'a\nb' y" =
      .ok [⟨.identifier, "x", none, 1⟩, ⟨.singleQuoted, "'a\nb'", some (.string "a\nb"), 2⟩,
        ⟨.identifier, "y", none, 3⟩, .endOfInput 3] := by
    simp [scan, scanFrom, linesPassed, lexeme?, quotedLength?, runLength, literal?, TokenKind.ofWord,
      TokenKind.keywords, TokenKind.isSkipped, isBlank, List.lookup_cons]
  obtain ⟨pieces, last, htext, htokens, hlast, -⟩ := scan_layout hscan
  exact ⟨_, hscan, rfl, pieces, last, htext, htokens, hlast⟩

end Scriptlet
