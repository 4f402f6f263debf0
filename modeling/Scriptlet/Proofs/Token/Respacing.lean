import Mathlib.Data.List.Forall2
import Scriptlet.Proofs.Token.LongestMatch

/-!
# Tokens set apart by blanks

A lexeme is known by the rule it follows, and where a blank or the end of the text comes behind it
no rule can reach further. So tokens can be taken out of their text, spaced out with single blanks
and scanned again.

* `Ruled.lexes`: **a lexeme that is no space is cut off the same before a blank**, whatever stood
  behind it in its text.
* `Token.Separable`: a token that its lexeme alone gives back; `separable_of_scanFrom`: all tokens
  of a text are separable.
* `scan_respaced`: **the tokens of a text survive when only blanks stand between them**.
-/

namespace Scriptlet

/-! ## Lexemes before a blank -/

/-- Behind a lexeme comes a blank or nothing. -/
def Spaced (rest : List Char) : Prop := ∀ c ∈ rest.head?, c = ' '

section Spaced

variable {c : Char} {cs rest : List Char} {kind : TokenKind}

theorem spaced_nil : Spaced [] := nofun

theorem spaced_cons (cs : List Char) : Spaced (' ' :: cs) := by
  rintro _ ⟨⟩
  rfl

theorem Spaced.breaks (h : Spaced rest) : Breaks rest := by
  cases rest with
  | nil => exact breaks_nil
  | cons d ds =>
    obtain rfl := h d rfl
    exact breaks_cons rfl (by decide)

theorem Spaced.head?_beq (h : Spaced rest) (hc : c ≠ ' ') : (rest.head? == some c) = false := by
  cases rest with
  | nil => rfl
  | cons d ds =>
    obtain rfl := h d rfl
    simpa using hc.symm

theorem Spaced.withEqual (h : Spaced rest) (alone joined : TokenKind) :
    withEqual rest alone joined = (alone, 0) := by
  rw [Scriptlet.withEqual, h.head?_beq (by decide)]
  rfl

/-- Neither an equals sign nor a second slash joins an operator over a blank. -/
theorem lexes_operator (h : (cs, kind) ∈ operatorRules.map fun r => (r.1.toList, r.2))
    (hrest : Spaced rest) : Lexes kind cs rest := by
  simp only [operatorRules, List.map_cons, List.map_nil, String.reduceToList, List.mem_cons,
    Prod.mk.injEq, List.not_mem_nil, or_false] at h
  rcases h with ⟨rfl, rfl⟩ | ⟨rfl, rfl⟩ | ⟨rfl, rfl⟩ | ⟨rfl, rfl⟩ | ⟨rfl, rfl⟩ | ⟨rfl, rfl⟩ |
    ⟨rfl, rfl⟩ | ⟨rfl, rfl⟩ | ⟨rfl, rfl⟩
  · refine ⟨'/', [], rfl, ?_⟩
    change (if rest.head? == some '/' then _ else some (TokenKind.slash, 0)) = _
    rw [hrest.head?_beq (by decide)]
    rfl
  · exact ⟨'!', [], rfl, congrArg some (hrest.withEqual .bang .bangEqual)⟩
  · exact ⟨'!', ['='], rfl, rfl⟩
  · exact ⟨'=', [], rfl, congrArg some (hrest.withEqual .equal .equalEqual)⟩
  · exact ⟨'=', ['='], rfl, rfl⟩
  · exact ⟨'>', [], rfl, congrArg some (hrest.withEqual .greater .greaterEqual)⟩
  · exact ⟨'>', ['='], rfl, rfl⟩
  · exact ⟨'<', [], rfl, congrArg some (hrest.withEqual .less .lessEqual)⟩
  · exact ⟨'<', ['='], rfl, rfl⟩

theorem lexes_keyword (h : (String.ofList cs, kind) ∈ keywordRules) (hrest : Breaks rest) :
    Lexes kind cs rest := by
  obtain ⟨hhead, hall, hkind⟩ := keywords_spelled _ h
  rw [String.toList_ofList] at hhead hall
  have hword : IsWord cs := by
    cases cs with
    | nil =>
      have hne : ∀ r ∈ keywordRules, r.1 ≠ "" := by decide
      exact absurd rfl (hne _ h)
    | cons c cs =>
      simp only [List.head?_cons, Option.all_some, List.all_cons, Bool.and_eq_true,
        List.all_eq_true] at hhead hall
      exact ⟨c, cs, rfl, hhead, hall.2⟩
  have hlex := hword.lexes hrest
  rwa [hkind] at hlex

theorem lexes_fixed (h : (String.ofList cs, kind) ∈ fixedRules) (hrest : Spaced rest) :
    Lexes kind cs rest := by
  rcases List.mem_append.mp h with h | hkeyword
  · rcases List.mem_append.mp h with hsymbol | hoperator
    · obtain ⟨c, htext, hlex⟩ := lexeme?_symbol _ hsymbol rest
      rw [String.toList_ofList] at htext
      exact ⟨c, [], htext, hlex⟩
    · exact lexes_operator (List.mem_map.mpr ⟨_, hoperator, by simp⟩) hrest
  · exact lexes_keyword hkeyword hrest.breaks

/-- Texts of a pattern are cut off before a blank, but for comments and blanks themselves. -/
theorem lexes_pattern {texts : Language Char} (h : (texts, kind) ∈ patternRules) (hmem : cs ∈ texts)
    (hfixed : ∀ k, (String.ofList cs, k) ∉ fixedRules) (hkind : kind.isSkipped = false)
    (hrest : Breaks rest) : Lexes kind cs rest := by
  simp only [patternRules, List.mem_cons, Prod.mk.injEq, List.not_mem_nil, or_false] at h
  rcases h with ⟨rfl, rfl⟩ | ⟨rfl, rfl⟩ | ⟨rfl, rfl⟩ | ⟨rfl, rfl⟩ | ⟨rfl, rfl⟩ | ⟨rfl, rfl⟩ |
    ⟨rfl, rfl⟩
  · obtain ⟨whole, fraction, rfl, hdigital, hne⟩ := mem_decimal.mp hmem
    have hlex := hdigital.lexes hrest
    rwa [pointed_of_ne_nil hne] at hlex
  · obtain ⟨hne, hdigits⟩ := mem_digits.mp hmem
    have hdigital : Digital cs [] := ⟨hne, hdigits, nofun⟩
    exact hdigital.lexes hrest
  · obtain ⟨body, rfl, hbody⟩ := (mem_quoted rfl).mp hmem
    exact lexes_quoted (fun _ => rfl) hbody rest
  · obtain ⟨body, rfl, hbody⟩ := (mem_quoted rfl).mp hmem
    exact lexes_quoted (fun _ => rfl) hbody rest
  · have hlex := (mem_word.mp hmem).lexes hrest
    rwa [ofWord_of_not_mem fun k hk => hfixed k (List.mem_append_right _ hk)] at hlex
  · cases hkind
  · cases hkind

/-- **A lexeme that is no space is cut off the same before a blank** and at the end of a text. -/
theorem Ruled.lexes (h : Ruled kind cs) (hkind : kind.isSkipped = false) (hrest : Spaced rest) :
    Lexes kind cs rest := by
  obtain hfixed | ⟨hfixed, texts, hrule, hmem⟩ := h
  · exact lexes_fixed hfixed hrest
  · exact lexes_pattern hrule hmem hfixed hkind hrest.breaks

end Spaced

/-! ## Tokens on their own -/

/-- **A token that its lexeme alone gives back**: where a blank or nothing follows, the lexeme is
cut off with the token's kind, and it writes the token's constant. -/
structure Token.Separable (t : Token) : Prop where
  kind : t.kind.isSkipped = false
  lexes (rest : List Char) (h : Spaced rest) : Lexes t.kind t.lexeme.toList rest
  constant : t.literal = literal? t.kind t.lexeme.toList

theorem separable_of_lexeme? {c : Char} {cs : List Char} {kind : TokenKind} {n : Nat}
    (h : lexeme? c cs = some (kind, n)) (hkind : kind.isSkipped = false) (line : Nat) :
    Token.Separable ⟨kind, .ofList (c :: cs.take n), literal? kind (c :: cs.take n), line⟩ where
  kind := hkind
  lexes rest hrest := by
    rw [String.toList_ofList]
    exact (ruled_of_lexeme? h).lexes hkind hrest
  constant := by rw [String.toList_ofList]

/-- **All tokens of a text are separable**, up to the end of input that closes them. -/
theorem separable_of_scanFrom {line : Nat} {cs : List Char} {ts : List Token}
    (h : scanFrom line cs = .ok ts) :
    ∃ us last, ts = us ++ [.endOfInput last] ∧ ∀ t ∈ us, t.Separable := by
  fun_induction scanFrom line cs generalizing ts with
  | case1 line =>
    cases h
    exact ⟨[], line, rfl, List.forall_mem_nil _⟩
  | case2 | case3 => cases h
  | case4 line c cs kind n hlex lexeme us hmore hskip =>
    rename_i ih
    cases h
    exact ih hmore
  | case5 line c cs kind n hlex lexeme vs hmore hskip =>
    rename_i ih
    cases h
    obtain ⟨us, last, rfl, hus⟩ := ih hmore
    have hfirst := separable_of_lexeme? hlex (eq_false_of_ne_true hskip) line
    exact ⟨_ :: us, last, rfl, List.forall_mem_cons.mpr ⟨hfirst, hus⟩⟩

/-- Two tokens differ in their lines at most. -/
structure Token.Alike (t u : Token) : Prop where
  kind : t.kind = u.kind
  lexeme : t.lexeme = u.lexeme
  literal : t.literal = u.literal

theorem scans_spaced {us : List Token} (h : ∀ t ∈ us, t.Separable) :
    Scans (List.Forall₂ Token.Alike us) (us.flatMap fun t => ' ' :: t.lexeme.toList) [] := by
  induction us with
  | nil =>
    refine Scans.nil.mono ?_
    rintro _ rfl
    exact .nil
  | cons t us ih =>
    obtain ⟨ht, hus⟩ := List.forall_mem_cons.mp h
    have hspaced : Spaced (us.flatMap fun t => ' ' :: t.lexeme.toList) := by
      cases us with
      | nil => exact spaced_nil
      | cons u us => exact spaced_cons _
    refine ((Scans.lexeme (ht.lexes _ hspaced) ht.kind (ih hus)).space).mono ?_
    rintro _ ⟨u, vs, rfl, ⟨hkind, hlexeme, hliteral⟩, hvs⟩
    rw [String.ofList_toList] at hlexeme
    exact .cons ⟨hkind.symm, hlexeme.symm, ht.constant.trans hliteral.symm⟩ hvs

theorem scans_respaced {us : List Token} (h : ∀ t ∈ us, t.Separable) :
    Scans (List.Forall₂ Token.Alike us) (" ".intercalate (us.map Token.lexeme)).toList [] := by
  have hspaced := scans_spaced h
  cases us with
  | nil => exact hspaced
  | cons t us =>
    rw [List.map_cons, toList_intercalate_cons, List.flatMap_map]
    exact scans_space.mp hspaced

/-- **The tokens of a text survive when only blanks stand between them.** For every text that can
be scanned, let the lexemes of its tokens, the end of input left out, be joined by single blanks.
The result can be scanned, to as many tokens with the same kinds, lexemes and constants in the same
order: none of them is joined to another or taken for a comment. -/
theorem scan_respaced {source : String} {ts : List Token} (h : scan source = .ok ts) :
    ∃ us last, ts = us ++ [.endOfInput last] ∧
      ∃ vs last', scan (" ".intercalate (us.map Token.lexeme)) = .ok (vs ++ [.endOfInput last']) ∧
        List.Forall₂ Token.Alike us vs := by
  obtain ⟨us, last, rfl, hus⟩ := separable_of_scanFrom h
  obtain ⟨vs, last', hscan, halike⟩ := scans_respaced hus 1
  refine ⟨us, last, rfl, vs, last', ?_, halike⟩
  rw [scan, hscan, scanFrom]
  rfl

/-- Words, operators and a string that stand close together, and a comment that is left out. -/
theorem scan_respaced_close :
    ∃ us, scan "if!x'/ /'==/ / //y" = .ok (us ++ [.endOfInput 1]) ∧
      " ".intercalate (us.map Token.lexeme) = "if ! x '/ /' == / /" ∧
      ∃ vs last', scan "if ! x '/ /' == / /" = .ok (vs ++ [.endOfInput last']) ∧
        List.Forall₂ Token.Alike us vs := by
  let us : List Token := [⟨.kwIf, "if", none, 1⟩, ⟨.bang, "!", none, 1⟩, ⟨.identifier, "x", none, 1⟩,
    ⟨.singleQuoted, "'/ /'", some (.string "/ /"), 1⟩, ⟨.equalEqual, "==", none, 1⟩,
    ⟨.slash, "/", none, 1⟩, ⟨.slash, "/", none, 1⟩]
  have hscan : scan "if!x'/ /'==/ / //y" = .ok (us ++ [.endOfInput 1]) := by
    simp [us, scan, scanFrom, linesPassed, lexeme?, quotedLength?, runLength, withEqual, literal?,
      TokenKind.ofWord, TokenKind.keywords, TokenKind.isSkipped, isBlank, List.lookup_cons]
  have htext : " ".intercalate (us.map Token.lexeme) = "if ! x '/ /' == / /" := by decide
  obtain ⟨us', last, hsplit, hrespaced⟩ := scan_respaced hscan
  obtain ⟨rfl, -⟩ := List.append_inj' hsplit rfl
  rw [htext] at hrespaced
  exact ⟨us, hscan, htext, hrespaced⟩

end Scriptlet
