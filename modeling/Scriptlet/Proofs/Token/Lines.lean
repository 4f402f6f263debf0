import Scriptlet.Proofs.Token.Scanning

/-!
# Texts below each other

No lexeme goes on over the end of a line, but for strings, and those are closed within their text.
So a line break between two texts keeps them apart: the tokens of both follow each other, those of
the second further down.

* `Token.relined`, `ScanError.relined`: a token and an error on another line.
* `lexeme?_append_newline`: a lexeme is the same before a line break and whatever comes behind it.
* `scanFrom_add`: a text has the same tokens and the same error wherever it starts.
* `scan_append_newline`: the tokens of two texts below each other.
* `scan_text_below`: **scanning distributes over line breaks**, also if it fails below the break.
-/

namespace Scriptlet

/-- The token with its line moved by `f`. -/
def Token.relined (f : Nat → Nat) (t : Token) : Token := { t with line := f t.line }

/-- The error with its line moved by `f`. -/
def ScanError.relined (f : Nat → Nat) : ScanError → ScanError
  | .unexpectedCharacter c line => .unexpectedCharacter c (f line)
  | .unterminatedString line => .unterminatedString (f line)

/-! ## Lexemes before a line break -/

section LineBreak

variable (cs ds : List Char)

theorem takeWhile_append_newline {p : Char → Bool} (hp : p '\n' = false) :
    (cs ++ '\n' :: ds).takeWhile p = cs.takeWhile p := by
  have hbreak : ('\n' :: ds).takeWhile p = [] := List.takeWhile_cons_of_neg (by simp [hp])
  rw [List.takeWhile_append, hbreak, List.append_nil]
  split_ifs with hall
  · exact ((List.takeWhile_prefix p).eq_of_length hall).symm
  · rfl

theorem runLength_append_newline {p : Char → Bool} (hp : p '\n' = false) :
    runLength p (cs ++ '\n' :: ds) = runLength p cs := by
  rw [runLength, takeWhile_append_newline cs ds hp, runLength]

theorem runLength_le (p : Char → Bool) : runLength p cs ≤ cs.length :=
  (List.takeWhile_prefix p).length_le

theorem head?_append_newline {c : Char} (hc : c ≠ '\n') :
    ((cs ++ '\n' :: ds).head? == some c) = (cs.head? == some c) := by
  cases cs with
  | nil => simpa using hc.symm
  | cons d cs => rfl

theorem withEqual_append_newline (alone joined : TokenKind) :
    withEqual (cs ++ '\n' :: ds) alone joined = withEqual cs alone joined := by
  simp only [withEqual, head?_append_newline cs ds (show '=' ≠ '\n' by decide)]

/-- A point at the end of a line belongs to no number. -/
theorem numberLength_append_newline : numberLength (cs ++ '\n' :: ds) = numberLength cs := by
  unfold numberLength
  dsimp only
  rw [runLength_append_newline cs ds rfl, List.drop_append_of_le_length (runLength_le cs _)]
  -- what comes behind the digits: nothing, a last character, or two characters that decide
  rcases cs.drop (runLength Char.isDigit cs) with _ | ⟨c, _ | ⟨d, rest⟩⟩
  · rfl
  · by_cases hc : c = '.'
    · subst hc
      rfl
    · simp [hc]
  · by_cases hc : c = '.'
    · subst hc
      simp only [List.cons_append, runLength_append_newline rest ds (p := Char.isDigit) rfl]
    · simp [hc]

theorem numberLength_le : numberLength cs ≤ cs.length := by
  have hwhole := runLength_le cs Char.isDigit
  unfold numberLength
  dsimp only
  split
  · rename_i d rest hdrop
    have hlength := congrArg List.length hdrop
    rw [List.length_drop, List.length_cons, List.length_cons] at hlength
    have hrest := runLength_le rest Char.isDigit
    split_ifs <;> omega
  · exact hwhole

variable {cs}

theorem quotedLength?_append {quote : Char} {n : Nat} (h : quotedLength? quote cs = some n) :
    n ≤ cs.length ∧ quotedLength? quote (cs ++ ds) = some n := by
  unfold quotedLength? at h
  dsimp only at h
  split_ifs at h with hlt
  cases h
  have hrun : runLength (· != quote) (cs ++ ds) = runLength (· != quote) cs := by
    unfold runLength at hlt ⊢
    rw [List.takeWhile_append, if_neg (Nat.ne_of_lt hlt)]
  refine ⟨hlt, ?_⟩
  unfold quotedLength?
  dsimp only
  rw [hrun, if_pos (by rw [List.length_append]; omega)]

/-- **A lexeme ends before a line break** where it ends at the end of a text. -/
theorem lexeme?_append_newline {c : Char} {kind : TokenKind} {n : Nat}
    (h : lexeme? c cs = some (kind, n)) :
    n ≤ cs.length ∧ lexeme? c (cs ++ '\n' :: ds) = some (kind, n) := by
  have hjoined : ∀ alone joined, withEqual cs alone joined = (kind, n) → n ≤ cs.length := by
    intro alone joined hwith
    unfold withEqual at hwith
    split_ifs at hwith with hhead
    · cases hwith
      cases cs with
      | nil => cases hhead
      | cons => exact Nat.succ_le_succ (Nat.zero_le _)
    · cases hwith
      exact Nat.zero_le _
  unfold lexeme? at h
  split at h
  case h_13 =>
    have hcomment : lexeme? '/' (cs ++ '\n' :: ds) = if cs.head? == some '/' then
        some (.comment, runLength (· != '\n') cs) else some (.slash, 0) := by
      rw [← head?_append_newline cs ds (show '/' ≠ '\n' by decide),
        ← runLength_append_newline cs ds rfl]
      rfl
    refine ⟨?_, hcomment.trans h⟩
    split_ifs at h
    · cases h
      exact runLength_le cs _
    · cases h
      exact Nat.zero_le _
  case h_14 | h_15 | h_16 | h_17 =>
    exact ⟨hjoined _ _ (Option.some.inj h),
      (congrArg some (withEqual_append_newline cs ds _ _)).trans h⟩
  case h_18 | h_19 =>
    -- a string may go on over the end of a line, but this one is closed
    obtain ⟨_, hn, heq⟩ := Option.map_eq_some_iff.mp h
    cases heq
    obtain ⟨hle, hsame⟩ := quotedLength?_append ('\n' :: ds) hn
    exact ⟨hle, congrArg (Option.map _) hsame⟩
  case h_21 =>
    split_ifs at h with hblank hdigit halpha
    · cases h
      refine ⟨runLength_le cs _, ?_⟩
      rw [lexeme?_blank hblank, runLength_append_newline cs ds rfl]
    · cases h
      refine ⟨numberLength_le cs, ?_⟩
      rw [lexeme?_of_isDigit hdigit, numberLength_append_newline]
    · cases h
      refine ⟨runLength_le cs _, ?_⟩
      rw [lexeme?_of_isAlpha halpha, takeWhile_append_newline cs ds rfl,
        runLength_append_newline cs ds rfl, take_runLength]
  all_goals
    cases h
    exact ⟨Nat.zero_le _, rfl⟩

end LineBreak

/-! ## Texts -/

theorem scanError_add (c : Char) (line k : Nat) :
    scanError c (line + k) = (scanError c line).relined (· + k) := by
  unfold scanError
  split_ifs <;> rfl

/-- **A text has the same tokens wherever it starts**, and fails with the same error. -/
theorem scanFrom_add (line : Nat) (cs : List Char) (k : Nat) :
    scanFrom (line + k) cs =
      ((scanFrom line cs).map (List.map (Token.relined (· + k)))).mapError
        (ScanError.relined (· + k)) := by
  fun_induction scanFrom line cs with
  | case1 line =>
    rw [scanFrom]
    rfl
  | case2 line c cs hlex =>
    rw [scanFrom, hlex]
    exact congrArg Except.error (scanError_add c line k)
  | case3 line c cs kind n hlex lexeme e hmore =>
    rename_i ih
    rw [scanFrom_cons hlex, ← linesPassed_eq hlex, Nat.add_right_comm, ih, hmore]
    rfl
  | case4 line c cs kind n hlex lexeme us hmore hskip =>
    rename_i ih
    rw [scanFrom_cons hlex, ← linesPassed_eq hlex, Nat.add_right_comm, ih, hmore, hskip]
    rfl
  | case5 line c cs kind n hlex lexeme us hmore hskip =>
    rename_i ih
    rw [scanFrom_cons hlex, ← linesPassed_eq hlex, Nat.add_right_comm, ih, hmore, eq_false_of_ne_true hskip]
    rfl

/-- **What stands below a text** is scanned from the line behind its last. -/
theorem scanFrom_append_newline {line : Nat} {cs : List Char} {ts : List Token}
    (h : scanFrom line cs = .ok ts) :
    ∃ us last, ts = us ++ [.endOfInput last] ∧
      ∀ ds, scanFrom line (cs ++ '\n' :: ds) = (us ++ ·) <$> scanFrom (last + 1) ds := by
  fun_induction scanFrom line cs generalizing ts with
  | case1 line =>
    cases h
    refine ⟨[], line, rfl, fun ds => ?_⟩
    rw [List.nil_append, scanFrom_cons (show lexeme? '\n' ds = some (.lineBreak, 0) from rfl)]
    rfl
  | case2 | case3 => cases h
  | case4 line c cs kind n hlex lexeme vs hmore hskip =>
    rename_i ih
    cases h
    obtain ⟨us, last, rfl, hbelow⟩ := ih hmore
    refine ⟨us, last, rfl, fun ds => ?_⟩
    obtain ⟨hle, hlex'⟩ := lexeme?_append_newline ds hlex
    rw [List.cons_append, scanFrom_cons hlex', List.take_append_of_le_length hle,
      List.drop_append_of_le_length hle, ← linesPassed_eq hlex, hbelow ds, hskip]
    cases scanFrom (last + 1) ds <;> rfl
  | case5 line c cs kind n hlex lexeme vs hmore hskip =>
    rename_i ih
    cases h
    obtain ⟨us, last, rfl, hbelow⟩ := ih hmore
    refine ⟨_ :: us, last, rfl, fun ds => ?_⟩
    obtain ⟨hle, hlex'⟩ := lexeme?_append_newline ds hlex
    rw [List.cons_append, scanFrom_cons hlex', List.take_append_of_le_length hle,
      List.drop_append_of_le_length hle, ← linesPassed_eq hlex, hbelow ds, eq_false_of_ne_true hskip]
    cases scanFrom (last + 1) ds <;> rfl

theorem scan_below {source : String} {us : List Token} {k : Nat}
    (h : scan source = .ok (us ++ [.endOfInput k])) (source' : String) :
    scan (source ++ "\n" ++ source') = (us ++ ·) <$>
      ((scan source').map (List.map (Token.relined (· + k)))).mapError
        (ScanError.relined (· + k)) := by
  obtain ⟨us', k', heq, hbelow⟩ := scanFrom_append_newline h
  obtain ⟨rfl, hlast⟩ := List.append_inj' heq rfl
  obtain rfl : k = k' := by simpa [Token.endOfInput] using hlast
  have htext : (source ++ "\n" ++ source').toList = source.toList ++ '\n' :: source'.toList := by
    simp
  rw [scan, htext, hbelow, Nat.add_comm k 1, scanFrom_add]
  rfl

/-- **The tokens of two texts below each other.** -/
theorem scan_append_newline {source source' : String} {us vs : List Token} {k l : Nat}
    (h : scan source = .ok (us ++ [.endOfInput k]))
    (h' : scan source' = .ok (vs ++ [.endOfInput l])) :
    scan (source ++ "\n" ++ source') =
      .ok (us ++ vs.map (Token.relined (· + k)) ++ [.endOfInput (l + k)]) := by
  rw [scan_below h, h', List.append_assoc]
  change Except.ok (us ++ (vs ++ [Token.endOfInput l]).map (Token.relined (· + k))) = _
  rw [List.map_append]
  rfl

/-- **Scanning distributes over line breaks.** Let a text be scanned as `us`, with its end of input
on line `k`. If the text below the break can be scanned, then the tokens of both follow each other,
with `k` added to the lines of the second, its end of input included. If it cannot, then the two
together fail with the same error, `k` lines further down. -/
theorem scan_text_below {source : String} {us : List Token} {k : Nat}
    (h : scan source = .ok (us ++ [.endOfInput k])) (source' : String) :
    (∀ vs, scan source' = .ok vs →
      scan (source ++ "\n" ++ source') = .ok (us ++ vs.map (Token.relined (· + k)))) ∧
    ∀ e, scan source' = .error e →
      scan (source ++ "\n" ++ source') = .error (e.relined (· + k)) := by
  constructor
  · intro vs h'
    rw [scan_below h, h']
    rfl
  · intro e h'
    rw [scan_below h, h']
    rfl

/-- A string over two lines and a slash at the end of a text: a slash below it does not make a
comment of the two, and a string that is left open below it is reported on its line. -/
theorem scan_text_below_slashes :
    scan "'a\nb' /" = .ok [⟨.singleQuoted, "'a\nb'", some (.string "a\nb"), 1⟩,
        ⟨.slash, "/", none, 2⟩, .endOfInput 2] ∧
      scan ("'a\nb' /" ++ "\n" ++ "/ x") =
        .ok [⟨.singleQuoted, "'a\nb'", some (.string "a\nb"), 1⟩, ⟨.slash, "/", none, 2⟩,
          ⟨.slash, "/", none, 3⟩, ⟨.identifier, "x", none, 3⟩, .endOfInput 3] ∧
      scan ("'a\nb' /" ++ "\n" ++ "x\n'y") = .error (.unterminatedString 4) := by
  have hfirst : scan "'a\nb' /" = .ok [⟨.singleQuoted, "'a\nb'", some (.string "a\nb"), 1⟩,
      ⟨.slash, "/", none, 2⟩, .endOfInput 2] := by
    simp [scan, scanFrom, linesPassed, lexeme?, quotedLength?, runLength, literal?,
      TokenKind.isSkipped, isBlank]
  have hsecond : scan "/ x" =
      .ok [⟨.slash, "/", none, 1⟩, ⟨.identifier, "x", none, 1⟩, .endOfInput 1] := by
    simp [scan, scanFrom, linesPassed, lexeme?, runLength, literal?, TokenKind.ofWord,
      TokenKind.keywords, TokenKind.isSkipped, isBlank, List.lookup_cons]
  have hopen : scan "x\n'y" = .error (.unterminatedString 2) := by
    simp [scan, scanFrom, linesPassed, lexeme?, quotedLength?, runLength, scanError,
      TokenKind.ofWord, TokenKind.keywords, isBlank, List.lookup_cons]
  have hsplit : scan "'a\nb' /" = .ok ([⟨.singleQuoted, "'a\nb'", some (.string "a\nb"), 1⟩,
      ⟨.slash, "/", none, 2⟩] ++ [.endOfInput 2]) := hfirst
  obtain ⟨hok, -⟩ := scan_text_below hsplit "/ x"
  obtain ⟨-, herror⟩ := scan_text_below hsplit "x\n'y"
  exact ⟨hfirst, hok _ hsecond, herror _ hopen⟩

end Scriptlet
