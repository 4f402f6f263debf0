import Mathlib.Computability.Language
import Scriptlet.Proofs.Token.Lines

/-!
# The longest match

Every kind of lexeme has its rules: a fixed text or a pattern. A text is cut where the longest match
of any rule ends; of a fixed text and a pattern that match equally much, the fixed text decides the
kind. Scanning looks at one or two characters and at runs of a class, and still finds this match.

* `fixedRules`, `patternRules`: **the table of rules**.
* `Longest`: the longest match at the front of a text; `Stuck`: no rule matches there.
* `lexeme?_eq_some_iff`, `lexeme?_eq_none_iff`: **the lexeme at the front is the longest match**.
* `Cut`: a text cut by longest matches, up to some place.
* `scan_longest_match`: **scanning is the longest-match scanner of the table**, and fails at the
  first place where no rule matches.
-/

namespace Scriptlet

open Computability

/-! ## The table of rules -/

/-- The texts of one character of a class. -/
def oneOf (p : Char → Prop) : Language Char := {cs | ∃ c, cs = [c] ∧ p c}

/-- The text itself. -/
def exactly (text : String) : Language Char := {text.toList}

def digit : Language Char := oneOf fun c => '0' ≤ c ∧ c ≤ '9'

def letter : Language Char := oneOf fun c => 'A' ≤ c ∧ c ≤ 'Z' ∨ 'a' ≤ c ∧ c ≤ 'z'

def separator : Language Char :=
  oneOf fun c => c = ' ' ∨ c = '\t' ∨ c = '\r' ∨ c = '\x0c'

/-- Characters that stand for themselves. -/
def symbolRules : List (String × TokenKind) :=
  [("(", .leftParen), (")", .rightParen), ("\x7b", .leftBrace), ("\x7d", .rightBrace),
    ("[", .leftBracket), ("]", .rightBracket), (",", .comma), (".", .dot), (";", .semicolon),
    ("+", .plus), ("-", .minus), ("*", .star), ("\n", .lineBreak)]

/-- Operators, some of which start with others. -/
def operatorRules : List (String × TokenKind) :=
  [("/", .slash), ("!", .bang), ("!=", .bangEqual), ("=", .equal), ("==", .equalEqual),
    (">", .greater), (">=", .greaterEqual), ("<", .less), ("<=", .lessEqual)]

/-- The reserved words. -/
def keywordRules : List (String × TokenKind) :=
  [("if", .kwIf), ("else", .kwElse), ("and", .kwAnd), ("or", .kwOr), ("fun", .kwFun),
    ("var", .kwVar), ("true", .kwTrue), ("false", .kwFalse), ("null", .kwNull), ("for", .kwFor),
    ("while", .kwWhile), ("in", .kwIn), ("return", .kwReturn)]

/-- The rules of a fixed text. -/
def fixedRules : List (String × TokenKind) := symbolRules ++ operatorRules ++ keywordRules

/-- The rules of a pattern. -/
def patternRules : List (Language Char × TokenKind) :=
  [(digit * digit∗ * exactly "." * (digit * digit∗), .number),
    (digit * digit∗, .number),
    (exactly "\"" * (oneOf (· ≠ '"'))∗ * exactly "\"", .doubleQuoted),
    (exactly "'" * (oneOf (· ≠ '\''))∗ * exactly "'", .singleQuoted),
    (letter * (letter + digit)∗, .identifier),
    (exactly "//" * (oneOf (· ≠ '\n'))∗, .comment),
    (separator * separator∗, .blank)]

/-- Some rule matches the text. -/
def Matched (cs : List Char) : Prop :=
  (∃ kind, (String.ofList cs, kind) ∈ fixedRules) ∨
    ∃ texts kind, (texts, kind) ∈ patternRules ∧ cs ∈ texts

/-- The kind of a matched text: a fixed text wins over a pattern. -/
def Ruled (kind : TokenKind) (cs : List Char) : Prop :=
  (String.ofList cs, kind) ∈ fixedRules ∨
    (∀ k, (String.ofList cs, k) ∉ fixedRules) ∧ ∃ texts, (texts, kind) ∈ patternRules ∧ cs ∈ texts

/-- **The longest match** at the front of `lexeme ++ rest`, and its kind. -/
structure Longest (kind : TokenKind) (lexeme rest : List Char) : Prop where
  ruled : Ruled kind lexeme
  longest : ∀ cs, cs <+: lexeme ++ rest → Matched cs → cs.length ≤ lexeme.length

/-- No rule matches at the front of a text. -/
def Stuck (cs : List Char) : Prop := ∀ ds, ds <+: cs → ¬ Matched ds

theorem matched_iff {cs : List Char} : Matched cs ↔ ∃ kind, Ruled kind cs := by
  constructor
  · intro h
    by_cases hfixed : ∃ kind, (String.ofList cs, kind) ∈ fixedRules
    · obtain ⟨kind, hkind⟩ := hfixed
      exact ⟨kind, .inl hkind⟩
    · obtain ⟨texts, kind, hrule, hcs⟩ := h.resolve_left hfixed
      exact ⟨kind, .inr ⟨fun k hk => hfixed ⟨k, hk⟩, texts, hrule, hcs⟩⟩
  · rintro ⟨kind, hfixed | ⟨-, texts, hrule, hcs⟩⟩
    · exact .inl ⟨kind, hfixed⟩
    · exact .inr ⟨texts, kind, hrule, hcs⟩

/-! ## The texts of the patterns -/

section Patterns

variable {p : Char → Prop} {cs : List Char}

theorem mem_oneOf : cs ∈ oneOf p ↔ ∃ c, cs = [c] ∧ p c := Iff.rfl

theorem mem_oneOf_mul {L : Language Char} :
    cs ∈ oneOf p * L ↔ ∃ c ds, cs = c :: ds ∧ p c ∧ ds ∈ L := by
  rw [Language.mem_mul]
  constructor
  · rintro ⟨_, ⟨c, rfl, hc⟩, ds, hds, rfl⟩
    exact ⟨c, ds, rfl, hc, hds⟩
  · rintro ⟨c, ds, rfl, hc, hds⟩
    exact ⟨[c], ⟨c, rfl, hc⟩, ds, hds, rfl⟩

theorem mem_kstar_oneOf : cs ∈ (oneOf p)∗ ↔ ∀ c ∈ cs, p c := by
  rw [Language.mem_kstar]
  constructor
  · rintro ⟨pieces, rfl, hpieces⟩ c hc
    obtain ⟨piece, hpiece, hmem⟩ := List.mem_flatten.mp hc
    obtain ⟨d, rfl, hd⟩ := hpieces piece hpiece
    rwa [List.mem_singleton.mp hmem]
  · intro h
    refine ⟨cs.map fun c => [c], by simp [← List.flatMap_def], ?_⟩
    intro piece hpiece
    obtain ⟨c, hc, rfl⟩ := List.mem_map.mp hpiece
    exact ⟨c, rfl, h c hc⟩

theorem mem_exactly {text : String} : cs ∈ exactly text ↔ cs = text.toList := Iff.rfl

theorem digit_eq : digit = oneOf fun c => c.isDigit := by
  unfold digit
  congr 1
  funext c
  simp [Char.isDigit, Char.le_def]

theorem letter_eq : letter = oneOf fun c => c.isAlpha := by
  unfold letter
  congr 1
  funext c
  have hcases : c.isAlpha = (c.isUpper || c.isLower) := rfl
  have hupper : c.isUpper = decide (c.val ≥ 'A'.val ∧ c.val ≤ 'Z'.val) := rfl
  have hlower : c.isLower = (decide (c.val ≥ 'a'.val) && decide (c.val ≤ 'z'.val)) := rfl
  rw [hcases, hupper, hlower]
  simp [Char.le_def]

theorem letter_add_digit : letter + digit = oneOf fun c => c.isAlphanum := by
  rw [letter_eq, digit_eq]
  refine Language.ext fun cs => ?_
  rw [Language.mem_add, mem_oneOf, mem_oneOf, mem_oneOf]
  simp only [Char.isAlphanum, Bool.or_eq_true, and_or_left, exists_or]

theorem mem_digits : cs ∈ digit * digit∗ ↔ cs ≠ [] ∧ ∀ c ∈ cs, c.isDigit := by
  rw [digit_eq, mem_oneOf_mul]
  constructor
  · rintro ⟨c, ds, rfl, hc, hds⟩
    exact ⟨List.cons_ne_nil c ds, List.forall_mem_cons.mpr ⟨hc, mem_kstar_oneOf.mp hds⟩⟩
  · rintro ⟨hne, h⟩
    obtain ⟨c, ds, rfl⟩ := List.exists_cons_of_ne_nil hne
    obtain ⟨hc, hds⟩ := List.forall_mem_cons.mp h
    exact ⟨c, ds, rfl, hc, mem_kstar_oneOf.mpr hds⟩

theorem mem_word : cs ∈ letter * (letter + digit)∗ ↔ IsWord cs := by
  rw [letter_add_digit, letter_eq, mem_oneOf_mul]
  simp only [mem_kstar_oneOf]
  rfl

theorem mem_quoted {t : String} {q : Char} (ht : t.toList = [q]) :
    cs ∈ exactly t * (oneOf (· ≠ q))∗ * exactly t ↔
      ∃ body, cs = q :: (body ++ [q]) ∧ q ∉ body := by
  simp only [Language.mem_mul, mem_exactly, ht]
  constructor
  · rintro ⟨_, ⟨_, rfl, body, hbody, rfl⟩, _, rfl, rfl⟩
    exact ⟨body, rfl, fun hmem => mem_kstar_oneOf.mp hbody q hmem rfl⟩
  · rintro ⟨body, rfl, hbody⟩
    refine ⟨q :: body, ⟨[q], rfl, body, mem_kstar_oneOf.mpr ?_, rfl⟩, [q], rfl, rfl⟩
    rintro c hc rfl
    exact hbody hc

theorem mem_comment :
    cs ∈ exactly "//" * (oneOf (· ≠ '\n'))∗ ↔ ∃ ds, cs = '/' :: '/' :: ds ∧ '\n' ∉ ds := by
  simp only [Language.mem_mul, mem_exactly]
  constructor
  · rintro ⟨_, rfl, ds, hds, rfl⟩
    exact ⟨ds, rfl, fun hmem => mem_kstar_oneOf.mp hds _ hmem rfl⟩
  · rintro ⟨ds, rfl, hds⟩
    refine ⟨_, rfl, ds, mem_kstar_oneOf.mpr ?_, rfl⟩
    rintro c hc rfl
    exact hds hc

theorem mem_decimal : cs ∈ digit * digit∗ * exactly "." * (digit * digit∗) ↔
    ∃ whole fraction, cs = whole ++ '.' :: fraction ∧ Digital whole fraction ∧ fraction ≠ [] := by
  rw [Language.mem_mul]
  simp only [Language.mem_mul (l := digit * digit∗), mem_digits, mem_exactly]
  constructor
  · rintro ⟨_, ⟨whole, ⟨hne, hwhole⟩, _, rfl, rfl⟩, fraction, ⟨hne', hfraction⟩, rfl⟩
    exact ⟨whole, fraction, by simp, ⟨hne, hwhole, hfraction⟩, hne'⟩
  · rintro ⟨whole, fraction, rfl, ⟨hne, hwhole, hfraction⟩, hne'⟩
    exact ⟨whole ++ ['.'], ⟨whole, ⟨hne, hwhole⟩, _, rfl, rfl⟩, fraction, ⟨hne', hfraction⟩,
      by simp⟩

theorem separator_eq : separator = oneOf fun c => isBlank c := by
  unfold separator
  congr 1
  funext c
  simp [isBlank, or_assoc]

theorem mem_blanks : cs ∈ separator * separator∗ ↔
    ∃ c ds, cs = c :: ds ∧ isBlank c ∧ ∀ d ∈ ds, isBlank d := by
  rw [separator_eq, mem_oneOf_mul]
  simp only [mem_kstar_oneOf]

end Patterns

/-! ## Scanning covers every match -/

/-- The lexeme at the front of `c :: cs` takes at least `n` characters of `cs`, and has the given
kind if it takes no more. -/
def Covers (c : Char) (cs : List Char) (n : Nat) (kind : TokenKind) : Prop :=
  ∃ kind' m, lexeme? c cs = some (kind', m) ∧ n ≤ m ∧ (m = n → kind' = kind)

section Covers

variable {c : Char} {cs ds : List Char} {kind : TokenKind}

theorem le_runLength {p : Char → Bool} (h : ds <+: cs) (hp : ∀ d ∈ ds, p d) :
    ds.length ≤ runLength p cs := by
  obtain ⟨rest, rfl⟩ := h
  rw [runLength, List.takeWhile_append_of_pos hp, List.length_append]
  omega

theorem covers_word (hc : c.isAlpha) (h : ds <+: cs) (hds : ∀ d ∈ ds, d.isAlphanum) :
    Covers c cs ds.length (.ofWord (.ofList (c :: ds))) := by
  refine ⟨_, _, lexeme?_of_isAlpha hc cs, le_runLength h hds, fun hlength => ?_⟩
  rw [← take_runLength, hlength, List.prefix_iff_eq_take.mp h, List.length_take_of_le h.length_le]

theorem lexeme?_symbol : ∀ r ∈ symbolRules, ∀ cs,
    ∃ c, r.1.toList = [c] ∧ lexeme? c cs = some (r.2, 0) := by
  intro r hr cs
  simp only [symbolRules, List.mem_cons, List.not_mem_nil, or_false] at hr
  rcases hr with rfl | rfl | rfl | rfl | rfl | rfl | rfl | rfl | rfl | rfl | rfl | rfl | rfl <;>
    exact ⟨_, rfl, rfl⟩

theorem covers_withEqual {alone joined : TokenKind}
    (h : lexeme? c cs = some (withEqual cs alone joined)) : Covers c cs 0 alone := by
  unfold withEqual at h
  split_ifs at h
  · exact ⟨_, _, h, Nat.zero_le _, nofun⟩
  · exact ⟨_, _, h, le_rfl, fun _ => rfl⟩

theorem covers_slash (cs : List Char) : Covers '/' cs 0 .slash := by
  cases cs with
  | nil => exact ⟨_, 0, rfl, le_rfl, fun _ => rfl⟩
  | cons d ds =>
    by_cases hd : d = '/'
    · subst hd
      exact ⟨_, runLength (· != '\n') ('/' :: ds), rfl, Nat.zero_le _, nofun⟩
    · exact ⟨.slash, 0, by simp [lexeme?, hd], le_rfl, fun _ => rfl⟩

theorem covers_joined (h : ['='] <+: cs)
    (hlex : ∀ rest, lexeme? c ('=' :: rest) = some (kind, 1)) :
    Covers c cs 1 kind := by
  obtain ⟨rest, rfl⟩ := h
  exact ⟨kind, 1, hlex rest, le_rfl, fun _ => rfl⟩

/-- An operator is reached, also if it starts with another one. -/
theorem covers_operator (h : (c :: ds, kind) ∈ operatorRules.map fun r => (r.1.toList, r.2))
    (hds : ds <+: cs) : Covers c cs ds.length kind := by
  simp only [operatorRules, List.map_cons, List.map_nil, String.reduceToList, List.mem_cons,
    Prod.mk.injEq, List.cons.injEq, List.not_mem_nil, or_false] at h
  rcases h with ⟨⟨rfl, rfl⟩, rfl⟩ | ⟨⟨rfl, rfl⟩, rfl⟩ | ⟨⟨rfl, rfl⟩, rfl⟩ | ⟨⟨rfl, rfl⟩, rfl⟩ |
    ⟨⟨rfl, rfl⟩, rfl⟩ | ⟨⟨rfl, rfl⟩, rfl⟩ | ⟨⟨rfl, rfl⟩, rfl⟩ | ⟨⟨rfl, rfl⟩, rfl⟩ |
    ⟨⟨rfl, rfl⟩, rfl⟩
  · exact covers_slash cs
  · exact covers_withEqual rfl
  · exact covers_joined hds fun _ => rfl
  · exact covers_withEqual rfl
  · exact covers_joined hds fun _ => rfl
  · exact covers_withEqual rfl
  · exact covers_joined hds fun _ => rfl
  · exact covers_withEqual rfl
  · exact covers_joined hds fun _ => rfl

theorem keywords_spelled : ∀ r ∈ keywordRules,
    r.1.toList.head?.all Char.isAlpha ∧ r.1.toList.all Char.isAlphanum ∧
      TokenKind.ofWord r.1 = r.2 := by
  decide

theorem covers_fixed (h : (String.ofList (c :: ds), kind) ∈ fixedRules) (hds : ds <+: cs) :
    Covers c cs ds.length kind := by
  rcases List.mem_append.mp h with h | hkeyword
  · rcases List.mem_append.mp h with hsymbol | hoperator
    · obtain ⟨c', htext, hlex⟩ := lexeme?_symbol _ hsymbol cs
      rw [String.toList_ofList] at htext
      cases htext
      exact ⟨kind, 0, hlex, le_rfl, fun _ => rfl⟩
    · exact covers_operator (List.mem_map.mpr ⟨_, hoperator, by simp⟩) hds
  · obtain ⟨hhead, hall, hkind⟩ := keywords_spelled _ hkeyword
    simp only [String.toList_ofList, List.head?_cons, Option.all_some,
      List.all_eq_true] at hhead hall
    have hreach := covers_word hhead hds fun d hd => hall d (List.mem_cons_of_mem c hd)
    rwa [hkind] at hreach

theorem runLength_le_numberLength (cs : List Char) :
    runLength Char.isDigit cs ≤ numberLength cs := by
  unfold numberLength
  dsimp only
  split
  · split_ifs <;> omega
  · exact le_rfl

theorem le_numberLength {fs : List Char} (h : ds ++ '.' :: fs <+: cs) (hds : ∀ d ∈ ds, d.isDigit)
    (hne : fs ≠ []) (hfs : ∀ d ∈ fs, d.isDigit) :
    (ds ++ '.' :: fs).length ≤ numberLength cs := by
  obtain ⟨rest, rfl⟩ := h
  obtain ⟨f, fs, rfl⟩ := List.exists_cons_of_ne_nil hne
  rw [List.forall_mem_cons] at hfs
  have hpoint : ∀ c ∈ ('.' :: f :: fs ++ rest).head?, c.isDigit = false := by
    rintro _ ⟨⟩
    rfl
  have hmore := le_runLength (List.prefix_append fs rest) hfs.2
  unfold numberLength
  dsimp only
  rw [List.append_assoc, runLength_run hds hpoint, List.drop_left]
  show _ ≤ if f.isDigit then ds.length + 2 + runLength Char.isDigit (fs ++ rest) else ds.length
  rw [if_pos hfs.1]
  simp only [List.length_append, List.length_cons]
  omega

theorem covers_quoted {quote : Char} (hds : c :: ds <+: c :: cs)
    (hlex : ∀ cs, lexeme? quote cs = (quotedLength? quote cs).map (kind, ·))
    (h : ∃ body, c :: ds = quote :: (body ++ [quote]) ∧ quote ∉ body) :
    Covers c cs ds.length kind := by
  obtain ⟨body, heq, hbody⟩ := h
  obtain ⟨rfl, rfl⟩ := List.cons.inj heq
  obtain ⟨rest, hrest⟩ := hds
  obtain rfl : body ++ c :: rest = cs := by simpa using hrest
  exact ⟨kind, body.length + 1, by rw [hlex, quotedLength?_run hbody]; rfl, by simp, fun _ => rfl⟩

theorem ofWord_of_not_mem {word : String} (h : ∀ k, (word, k) ∉ keywordRules) :
    TokenKind.ofWord word = .identifier := by
  unfold TokenKind.ofWord
  cases hlookup : TokenKind.keywords.lookup word with
  | none => rfl
  | some kind =>
    obtain ⟨before, after, hsplit, -⟩ := List.lookup_eq_some_iff.mp hlookup
    have hkeyword : (word, kind) ∈ TokenKind.keywords := by simp [hsplit]
    exact absurd hkeyword (h kind)

theorem covers_pattern {texts : Language Char} (h : (texts, kind) ∈ patternRules)
    (hmem : c :: ds ∈ texts) (hfixed : ∀ k, (String.ofList (c :: ds), k) ∉ fixedRules)
    (hds : ds <+: cs) : Covers c cs ds.length kind := by
  have hds' : c :: ds <+: c :: cs := by simpa using hds
  simp only [patternRules, List.mem_cons, Prod.mk.injEq, List.not_mem_nil, or_false] at h
  rcases h with ⟨rfl, rfl⟩ | ⟨rfl, rfl⟩ | ⟨rfl, rfl⟩ | ⟨rfl, rfl⟩ | ⟨rfl, rfl⟩ | ⟨rfl, rfl⟩ |
    ⟨rfl, rfl⟩
  · obtain ⟨whole, fraction, heq, ⟨hne, hwhole, hfraction⟩, hne'⟩ := mem_decimal.mp hmem
    obtain ⟨d, whole, rfl⟩ := List.exists_cons_of_ne_nil hne
    cases heq
    rw [List.forall_mem_cons] at hwhole
    exact ⟨_, _, lexeme?_of_isDigit hwhole.1 cs, le_numberLength hds hwhole.2 hne' hfraction,
      fun _ => rfl⟩
  · obtain ⟨-, hdigits⟩ := mem_digits.mp hmem
    rw [List.forall_mem_cons] at hdigits
    exact ⟨_, _, lexeme?_of_isDigit hdigits.1 cs,
      (le_runLength hds hdigits.2).trans (runLength_le_numberLength cs), fun _ => rfl⟩
  · exact covers_quoted hds' (fun _ => rfl) ((mem_quoted rfl).mp hmem)
  · exact covers_quoted hds' (fun _ => rfl) ((mem_quoted rfl).mp hmem)
  · obtain ⟨_, _, heq, hc, hword⟩ := mem_word.mp hmem
    cases heq
    have hreach := covers_word hc hds hword
    rwa [ofWord_of_not_mem fun k hk => hfixed k (List.mem_append_right _ hk)] at hreach
  · obtain ⟨es, heq, hes⟩ := mem_comment.mp hmem
    cases heq
    obtain ⟨rest, rfl⟩ := hds
    refine ⟨.comment, _, rfl, le_runLength (List.prefix_append _ rest) ?_, fun _ => rfl⟩
    rw [List.forall_mem_cons]
    refine ⟨rfl, fun d hd => bne_iff_ne.mpr ?_⟩
    rintro rfl
    exact hes hd
  · obtain ⟨_, _, heq, hc, hblanks⟩ := mem_blanks.mp hmem
    cases heq
    exact ⟨_, _, lexeme?_blank hc cs, le_runLength hds hblanks, fun _ => rfl⟩

theorem covers_of_ruled (h : Ruled kind (c :: ds)) (hds : ds <+: cs) :
    Covers c cs ds.length kind := by
  obtain hfixed | ⟨hfixed, texts, hrule, hmem⟩ := h
  · exact covers_fixed hfixed hds
  · exact covers_pattern hrule hmem hfixed hds

end Covers

/-! ## What scanning finds is a match -/

section Finds

variable {c : Char} {cs : List Char} {kind : TokenKind}

theorem not_mem_fixedRules {p : Char → Bool}
    (hp : ∀ r ∈ fixedRules, r.1.toList.head?.all fun c => !p c) (hc : p c) (k : TokenKind) :
    (String.ofList (c :: cs), k) ∉ fixedRules := by
  intro hmem
  simpa [hc] using hp _ hmem

theorem comment_not_mem_fixedRules (k : TokenKind) :
    (String.ofList ('/' :: '/' :: cs), k) ∉ fixedRules := by
  have hsecond : ∀ r ∈ fixedRules, r.1.toList.take 2 ≠ ['/', '/'] := by decide
  intro hmem
  exact hsecond _ hmem (by simp)

theorem ruled_pattern {texts : Language Char} (hfixed : ∀ k, (String.ofList cs, k) ∉ fixedRules)
    (hrule : (texts, kind) ∈ patternRules) (hcs : cs ∈ texts) : Ruled kind cs :=
  .inr ⟨hfixed, texts, hrule, hcs⟩

theorem ruled_word (h : IsWord cs) : Ruled (.ofWord (.ofList cs)) cs := by
  by_cases hkeyword : ∃ k, (String.ofList cs, k) ∈ keywordRules
  · obtain ⟨k, hk⟩ := hkeyword
    rw [(keywords_spelled _ hk).2.2]
    exact .inl (List.mem_append_right _ hk)
  · rw [not_exists] at hkeyword
    rw [ofWord_of_not_mem hkeyword]
    refine ruled_pattern (fun k hk => ?_) (by simp [patternRules]) (mem_word.mpr h)
    obtain ⟨c, ds, rfl, hc, -⟩ := h
    have hplain : ∀ r ∈ symbolRules ++ operatorRules, r.1.toList.head?.all fun c => !c.isAlpha := by
      decide
    rcases List.mem_append.mp hk with hk | hk
    · simpa [hc] using hplain _ hk
    · exact hkeyword k hk

theorem ruled_quoted {t : String} {q : Char} {n : Nat}
    (hquote : ∀ k ds, (String.ofList (q :: ds), k) ∉ fixedRules) (ht : t.toList = [q])
    (hrule : (exactly t * (oneOf (· ≠ q))∗ * exactly t, kind) ∈ patternRules)
    (h : quotedLength? q cs = some n) : Ruled kind (q :: cs.take n) := by
  obtain ⟨body, htake, hbody⟩ := take_of_quotedLength? h
  refine ruled_pattern (fun k => hquote k _) hrule ((mem_quoted ht).mpr ⟨body, ?_, hbody⟩)
  rw [htake]

theorem exists_digital (hc : c.isDigit) (cs : List Char) :
    ∃ whole fraction, c :: cs.take (numberLength cs) = pointed whole fraction ∧
      Digital whole fraction := by
  have hrun : ∀ es : List Char, ∀ d ∈ es.takeWhile Char.isDigit, d.isDigit :=
    fun es d hd => List.mem_takeWhile_imp hd
  have hwhole : ∃ whole fraction,
      c :: cs.take (runLength Char.isDigit cs) = pointed whole fraction ∧
      Digital whole fraction := by
    rw [take_runLength]
    exact ⟨_, [], rfl, List.cons_ne_nil _ _, List.forall_mem_cons.mpr ⟨hc, hrun cs⟩, nofun⟩
  unfold numberLength
  dsimp only
  split
  · rename_i d rest hdrop
    split_ifs with hd
    · refine ⟨c :: cs.takeWhile Char.isDigit, d :: rest.takeWhile Char.isDigit, ?_,
        List.cons_ne_nil _ _, List.forall_mem_cons.mpr ⟨hc, hrun cs⟩,
        List.forall_mem_cons.mpr ⟨hd, hrun rest⟩⟩
      have hcs : cs = cs.takeWhile Char.isDigit ++ '.' :: d :: rest := by
        rw [← hdrop, ← take_runLength, List.take_append_drop]
      have htake : cs.take (runLength Char.isDigit cs + 2 + runLength Char.isDigit rest) =
          cs.takeWhile Char.isDigit ++ '.' :: d :: rest.takeWhile Char.isDigit := by
        rw [List.take_add, List.take_add, hdrop, take_runLength, ← List.drop_drop, hdrop]
        simp [take_runLength]
      rw [htake]
      rfl
    · exact hwhole
  · exact hwhole

theorem ruled_number (hc : c.isDigit) (cs : List Char) :
    Ruled .number (c :: cs.take (numberLength cs)) := by
  have hfixed : ∀ k, (String.ofList (c :: cs.take (numberLength cs)), k) ∉ fixedRules :=
    not_mem_fixedRules (p := Char.isDigit) (by decide) hc
  obtain ⟨whole, fraction, heq, hdigital⟩ := exists_digital hc cs
  rw [heq] at hfixed ⊢
  cases fraction with
  | nil =>
    exact ruled_pattern hfixed (by simp [patternRules])
      (mem_digits.mpr ⟨hdigital.whole_ne_nil, hdigital.whole⟩)
  | cons d ds =>
    exact ruled_pattern hfixed (by simp [patternRules])
      (mem_decimal.mpr ⟨whole, d :: ds, rfl, hdigital, List.cons_ne_nil d ds⟩)

theorem ruled_comment (cs : List Char) :
    Ruled .comment ('/' :: '/' :: cs.takeWhile (· != '\n')) := by
  refine ruled_pattern comment_not_mem_fixedRules (by simp [patternRules])
    (mem_comment.mpr ⟨_, rfl, fun hmem => ?_⟩)
  simpa using List.mem_takeWhile_imp hmem

theorem ruled_withEqual {alone joined : TokenKind} {n : Nat}
    (h : withEqual cs alone joined = (kind, n)) (halone : (String.ofList [c], alone) ∈ fixedRules)
    (hjoined : (String.ofList [c, '='], joined) ∈ fixedRules) : Ruled kind (c :: cs.take n) := by
  unfold withEqual at h
  split_ifs at h with hhead
  · cases h
    cases cs with
    | nil => cases hhead
    | cons d ds =>
      obtain rfl : d = '=' := by simpa using hhead
      exact .inl hjoined
  · cases h
    exact .inl halone

/-- **What scanning finds is ruled.** -/
theorem ruled_of_lexeme? {n : Nat} (h : lexeme? c cs = some (kind, n)) :
    Ruled kind (c :: cs.take n) := by
  have hdouble : ∀ k ds, (String.ofList ('"' :: ds), k) ∉ fixedRules :=
    fun k _ => not_mem_fixedRules (p := (· == '"')) (by decide) rfl k
  have hsingle : ∀ k ds, (String.ofList ('\'' :: ds), k) ∉ fixedRules :=
    fun k _ => not_mem_fixedRules (p := (· == '\'')) (by decide) rfl k
  unfold lexeme? at h
  split at h
  case h_13 =>
    split_ifs at h with hslash
    · cases h
      cases cs with
      | nil => cases hslash
      | cons d ds =>
        obtain rfl : d = '/' := by simpa using hslash
        rw [take_runLength]
        exact ruled_comment ds
    · cases h
      rw [List.take_zero]
      exact .inl (by decide)
  case h_14 | h_15 | h_16 | h_17 =>
    exact ruled_withEqual (Option.some.inj h) (by decide) (by decide)
  case h_18 =>
    obtain ⟨_, hn, heq⟩ := Option.map_eq_some_iff.mp h
    cases heq
    exact ruled_quoted (t := "\"") hdouble rfl (by simp [patternRules]) hn
  case h_19 =>
    obtain ⟨_, hn, heq⟩ := Option.map_eq_some_iff.mp h
    cases heq
    exact ruled_quoted (t := "'") hsingle rfl (by simp [patternRules]) hn
  case h_21 =>
    split_ifs at h with hblank hdigit halpha
    · cases h
      rw [take_runLength]
      exact ruled_pattern (not_mem_fixedRules (p := isBlank) (by decide) hblank)
        (by simp [patternRules])
        (mem_blanks.mpr ⟨c, _, rfl, hblank, fun d hd => List.mem_takeWhile_imp hd⟩)
    · cases h
      exact ruled_number hdigit cs
    · cases h
      rw [take_runLength]
      exact ruled_word ⟨c, _, rfl, halpha, fun d hd => List.mem_takeWhile_imp hd⟩
  all_goals
    cases h
    rw [List.take_zero]
    exact .inl (by decide)

end Finds

/-! ## The lexeme at the front -/

section Front

variable {c : Char} {cs : List Char} {kind : TokenKind} {n : Nat}

theorem not_matched_nil : ¬ Matched [] := by
  rintro (⟨k, hk⟩ | ⟨texts, kind, hrule, hmem⟩)
  · have hne : ∀ r ∈ fixedRules, r.1 ≠ "" := by decide
    exact hne _ hk rfl
  · simp only [patternRules, List.mem_cons, Prod.mk.injEq, List.not_mem_nil, or_false] at hrule
    rcases hrule with ⟨rfl, -⟩ | ⟨rfl, -⟩ | ⟨rfl, -⟩ | ⟨rfl, -⟩ | ⟨rfl, -⟩ | ⟨rfl, -⟩ | ⟨rfl, -⟩
    · obtain ⟨whole, fraction, heq, -⟩ := mem_decimal.mp hmem
      simp at heq
    · exact (mem_digits.mp hmem).1 rfl
    · obtain ⟨_, heq, -⟩ := (mem_quoted (q := '"') rfl).mp hmem
      cases heq
    · obtain ⟨_, heq, -⟩ := (mem_quoted (q := '\'') rfl).mp hmem
      cases heq
    · obtain ⟨_, _, heq, -⟩ := mem_word.mp hmem
      cases heq
    · obtain ⟨_, heq, -⟩ := mem_comment.mp hmem
      cases heq
    · obtain ⟨_, _, heq, -⟩ := mem_blanks.mp hmem
      cases heq

/-- Every match at the front of a text goes at most as far as its lexeme. -/
theorem Matched.covers {ds : List Char} (h : Matched ds) (hds : ds <+: c :: cs) :
    ∃ kind n, lexeme? c cs = some (kind, n) ∧ ds.length ≤ n + 1 := by
  cases ds with
  | nil => exact absurd h not_matched_nil
  | cons d ds =>
    obtain ⟨rfl, hrest⟩ := List.cons_prefix_cons.mp hds
    obtain ⟨kind', hkind⟩ := matched_iff.mp h
    obtain ⟨kind, n, hlex, hle, -⟩ := covers_of_ruled hkind hrest
    exact ⟨kind, n, hlex, Nat.succ_le_succ hle⟩

/-- **The lexeme at the front of a text is the longest match.** -/
theorem lexeme?_eq_some_iff :
    lexeme? c cs = some (kind, n) ↔
      n ≤ cs.length ∧ Longest kind (c :: cs.take n) (cs.drop n) := by
  constructor
  · intro h
    have hle := (lexeme?_append_newline [] h).1
    refine ⟨hle, ruled_of_lexeme? h, fun ds hds hmatched => ?_⟩
    rw [List.cons_append, List.take_append_drop] at hds
    obtain ⟨kind', m, hlex, hlength⟩ := hmatched.covers hds
    rw [h] at hlex
    cases hlex
    rwa [List.length_cons, List.length_take_of_le hle]
  · rintro ⟨hle, hruled, hlongest⟩
    obtain ⟨kind', m, hlex, hreach, hkind⟩ := covers_of_ruled hruled (List.take_prefix n cs)
    rw [List.length_take_of_le hle] at hreach hkind
    have hmatched : Matched (c :: cs.take m) := matched_iff.mpr ⟨kind', ruled_of_lexeme? hlex⟩
    have hshorter := hlongest _ (by
      rw [List.cons_append, List.take_append_drop]
      exact List.cons_prefix_cons.mpr ⟨rfl, List.take_prefix m cs⟩) hmatched
    rw [List.length_cons, List.length_cons, List.length_take_of_le hle,
      List.length_take_of_le (lexeme?_append_newline [] hlex).1] at hshorter
    obtain rfl : m = n := by omega
    rw [hlex, hkind rfl]

/-- **No lexeme is at the front of a text exactly if no rule matches there.** -/
theorem lexeme?_eq_none_iff : lexeme? c cs = none ↔ Stuck (c :: cs) := by
  constructor
  · intro h ds hds hmatched
    obtain ⟨kind, n, hlex, -⟩ := hmatched.covers hds
    rw [h] at hlex
    cases hlex
  · intro h
    cases hlex : lexeme? c cs with
    | none => rfl
    | some r =>
      obtain ⟨kind, n⟩ := r
      refine absurd (matched_iff.mpr ⟨kind, ruled_of_lexeme? hlex⟩) (h _ ?_)
      exact List.cons_prefix_cons.mpr ⟨rfl, List.take_prefix n cs⟩

end Front

/-! ## Texts cut by longest matches -/

/-- **A text is cut by longest matches** into lexemes with their kinds, up to `rest`. -/
inductive Cut : List Char → List (TokenKind × List Char) → List Char → Prop
  | nil {rest : List Char} : Cut rest [] rest
  | cons {kind : TokenKind} {lexeme text rest : List Char} {pieces : List (TokenKind × List Char)}
      (first : Longest kind lexeme text) (more : Cut text pieces rest) :
    Cut (lexeme ++ text) ((kind, lexeme) :: pieces) rest

/-- The tokens of lexemes, the first of which starts on the given line. -/
def tokensFrom (line : Nat) : List (TokenKind × List Char) → List Token
  | [] => []
  | (kind, lexeme) :: pieces =>
    let more := tokensFrom (line + lexeme.count '\n') pieces
    if kind.isSkipped then more else ⟨kind, .ofList lexeme, literal? kind lexeme, line⟩ :: more

section Cut

variable {cs rest : List Char} {pieces : List (TokenKind × List Char)}

theorem Cut.text (h : Cut cs pieces rest) : cs = pieces.flatMap Prod.snd ++ rest := by
  induction h with
  | nil => rfl
  | cons _ _ ih => rw [List.flatMap_cons, List.append_assoc, ← ih]

theorem Cut.ruled (h : Cut cs pieces rest) : ∀ piece ∈ pieces, Ruled piece.1 piece.2 := by
  induction h with
  | nil => nofun
  | cons first _ ih => exact List.forall_mem_cons.mpr ⟨first.ruled, ih⟩

/-- **One step of scanning** cuts off the longest match. -/
theorem scanFrom_longest {kind : TokenKind} {lexeme rest : List Char} (h : Longest kind lexeme rest)
    (line : Nat) : scanFrom line (lexeme ++ rest) =
      (tokensFrom line [(kind, lexeme)] ++ ·) <$> scanFrom (line + lexeme.count '\n') rest := by
  cases lexeme with
  | nil => exact absurd (matched_iff.mpr ⟨kind, h.ruled⟩) not_matched_nil
  | cons c ds =>
    have hlex : lexeme? c (ds ++ rest) = some (kind, ds.length) := by
      rw [lexeme?_eq_some_iff, List.take_left, List.drop_left]
      exact ⟨by simp, h⟩
    rw [List.cons_append, scanFrom_cons hlex, List.take_left, List.drop_left, tokensFrom]
    cases kind.isSkipped <;> rfl

/-- **Scanning follows the cuts.** -/
theorem Cut.scanFrom (h : Cut cs pieces rest) (line : Nat) :
    scanFrom line cs = (tokensFrom line pieces ++ ·) <$>
      Scriptlet.scanFrom (line + (pieces.flatMap Prod.snd).count '\n') rest := by
  induction h generalizing line with
  | @nil rest => cases hrest : Scriptlet.scanFrom line rest <;> simp [tokensFrom, hrest]
  | @cons kind lexeme text rest pieces first more ih =>
    rw [scanFrom_longest first, ih, List.flatMap_cons, List.count_append, ← Nat.add_assoc]
    cases Scriptlet.scanFrom _ rest with
    | error e => rfl
    | ok ts =>
      simp only [tokensFrom]
      cases kind.isSkipped <;> rfl

theorem Cut.of_lexeme? {c : Char} {kind : TokenKind} {n : Nat} (h : lexeme? c cs = some (kind, n))
    (more : Cut (cs.drop n) pieces rest) :
    Cut (c :: cs) ((kind, c :: cs.take n) :: pieces) rest := by
  have hcut := Cut.cons (lexeme?_eq_some_iff.mp h).2 more
  rwa [List.cons_append, List.take_append_drop] at hcut

/-- Every text can be cut up to its end or to a place where no rule matches. -/
theorem exists_cut (cs : List Char) :
    ∃ pieces rest, Cut cs pieces rest ∧ (rest = [] ∨ rest ≠ [] ∧ Stuck rest) := by
  induction hn : cs.length using Nat.strong_induction_on generalizing cs with
  | _ n ih =>
    subst hn
    cases cs with
    | nil => exact ⟨[], [], .nil, .inl rfl⟩
    | cons c cs =>
      cases hlex : lexeme? c cs with
      | none => exact ⟨[], c :: cs, .nil, .inr ⟨List.cons_ne_nil c cs, lexeme?_eq_none_iff.mp hlex⟩⟩
      | some r =>
        obtain ⟨kind, n⟩ := r
        obtain ⟨pieces, rest, hcut, hrest⟩ := ih (cs.drop n).length
          (by simp only [List.length_drop, List.length_cons]; omega) (cs.drop n) rfl
        exact ⟨_, rest, .of_lexeme? hlex hcut, hrest⟩

end Cut

/-! ## Lexemes of some kinds -/

section Kinds

variable {kind : TokenKind} {cs : List Char}

theorem fixedRules_kind : ∀ r ∈ fixedRules,
    r.2 ∉ [TokenKind.number, .doubleQuoted, .singleQuoted] := by
  decide

theorem patternRules_kind {texts : Language Char} (h : (texts, kind) ∈ patternRules) :
    kind ∈ [.number, .doubleQuoted, .singleQuoted, .identifier, .comment, .blank] := by
  simp only [patternRules, List.mem_cons, Prod.mk.injEq, List.not_mem_nil, or_false] at h
  rcases h with ⟨-, rfl⟩ | ⟨-, rfl⟩ | ⟨-, rfl⟩ | ⟨-, rfl⟩ | ⟨-, rfl⟩ | ⟨-, rfl⟩ | ⟨-, rfl⟩ <;>
    decide

/-- **A keyword is a word that is spelled as the keyword as a whole.** -/
theorem Ruled.eq_keyword_iff (h : Ruled kind cs) {word : String} {k : TokenKind}
    (hk : (word, k) ∈ keywordRules) : kind = k ↔ String.ofList cs = word := by
  have hspelling : ∀ r ∈ keywordRules, ∀ r' ∈ fixedRules, r'.2 = r.2 ↔ r'.1 = r.1 := by
    decide +kernel
  have hpattern : ∀ r ∈ keywordRules, r.2 ∉
      [TokenKind.number, .doubleQuoted, .singleQuoted, .identifier, .comment, .blank] := by
    decide
  obtain hfixed | ⟨hfixed, texts, hrule, -⟩ := h
  · exact hspelling _ hk _ hfixed
  · constructor
    · rintro rfl
      exact absurd (patternRules_kind hrule) (hpattern _ hk)
    · rintro rfl
      exact absurd (List.mem_append_right _ hk) (hfixed k)

theorem Ruled.pattern (h : Ruled kind cs)
    (hkind : kind ∈ [TokenKind.number, .doubleQuoted, .singleQuoted]) :
    ∃ texts, (texts, kind) ∈ patternRules ∧ cs ∈ texts := by
  obtain hfixed | ⟨-, hpattern⟩ := h
  · exact absurd hkind (fixedRules_kind _ hfixed)
  · exact hpattern

/-- **A number** has a point only before a digit. -/
theorem Ruled.number (h : Ruled .number cs) :
    ∃ whole fraction, cs = pointed whole fraction ∧ Digital whole fraction := by
  obtain ⟨texts, hrule, hcs⟩ := h.pattern (by decide)
  simp only [patternRules, List.mem_cons, Prod.mk.injEq, List.not_mem_nil, reduceCtorEq, and_true,
    and_false, or_false] at hrule
  obtain rfl | rfl := hrule
  · obtain ⟨whole, fraction, rfl, hdigital, hne⟩ := mem_decimal.mp hcs
    exact ⟨whole, fraction, (pointed_of_ne_nil hne).symm, hdigital⟩
  · obtain ⟨hne, hdigits⟩ := mem_digits.mp hcs
    exact ⟨cs, [], rfl, hne, hdigits, List.forall_mem_nil _⟩

/-- **A string** ends with the first quote of its kind, and is the text between its quotes. -/
theorem Ruled.quoted {q : Char} (h : Ruled kind cs)
    (hkind : q = '"' ∧ kind = .doubleQuoted ∨ q = '\'' ∧ kind = .singleQuoted) :
    ∃ body, cs = q :: (body ++ [q]) ∧ q ∉ body ∧
      literal? kind cs = some (.string (.ofList body)) := by
  have hbody : ∃ body, cs = q :: (body ++ [q]) ∧ q ∉ body := by
    obtain ⟨rfl, rfl⟩ | ⟨rfl, rfl⟩ := hkind
    all_goals
      obtain ⟨texts, hrule, hcs⟩ := h.pattern (by decide)
      simp only [patternRules, List.mem_cons, Prod.mk.injEq, List.not_mem_nil, reduceCtorEq,
        and_true, and_false, or_false, false_or] at hrule
      subst hrule
      exact (mem_quoted rfl).mp hcs
  obtain ⟨body, rfl, hnot⟩ := hbody
  refine ⟨body, rfl, hnot, ?_⟩
  obtain ⟨-, rfl⟩ | ⟨-, rfl⟩ := hkind <;> simp [literal?]

end Kinds

/-! ## Scanning -/

section Scanning

variable {source : String} {pieces : List (TokenKind × List Char)}

theorem Cut.scan_eq_ok (h : Cut source.toList pieces []) :
    scan source = .ok (tokensFrom 1 pieces ++ [.endOfInput (1 + source.toList.count '\n')]) := by
  have htext := h.text
  rw [List.append_nil] at htext
  rw [scan, h.scanFrom 1, Scriptlet.scanFrom, ← htext]
  rfl

theorem Cut.scan_eq_error {c : Char} {rest : List Char} (h : Cut source.toList pieces (c :: rest))
    (hstuck : Stuck (c :: rest)) :
    scan source = .error (if c = '"' ∨ c = '\'' then
        .unterminatedString (1 + (pieces.flatMap Prod.snd).count '\n')
      else .unexpectedCharacter c (1 + (pieces.flatMap Prod.snd).count '\n')) := by
  rw [scan, h.scanFrom 1, Scriptlet.scanFrom, lexeme?_eq_none_iff.mpr hstuck]
  simp [scanError]

end Scanning

/-- **Scanning is the longest-match scanner of the table of rules.** A text is scanned exactly if it
can be cut by longest matches up to its end, and its tokens are then those of the lexemes. Scanning
fails exactly if the cuts lead to a place where no rule matches; the error is that of the character
there, on the line there. Of the lexemes on the way, a word is a keyword exactly if it is spelled as
one, a number has a point only before a digit, and a string ends with the first quote of its kind
and is the text between its quotes. -/
theorem scan_longest_match (source : String) :
    (∀ ts, scan source = .ok ts ↔ ∃ pieces, Cut source.toList pieces [] ∧
      ts = tokensFrom 1 pieces ++ [.endOfInput (1 + source.toList.count '\n')]) ∧
    (∀ e, scan source = .error e ↔ ∃ pieces c rest, Cut source.toList pieces (c :: rest) ∧
      Stuck (c :: rest) ∧
      e = if c = '"' ∨ c = '\'' then
          .unterminatedString (1 + (pieces.flatMap Prod.snd).count '\n')
        else .unexpectedCharacter c (1 + (pieces.flatMap Prod.snd).count '\n')) ∧
    ∀ pieces rest, Cut source.toList pieces rest → ∀ kind lexeme, (kind, lexeme) ∈ pieces →
      (∀ word k, (word, k) ∈ keywordRules → (kind = k ↔ String.ofList lexeme = word)) ∧
      (kind = .number → ∃ whole fraction, lexeme = pointed whole fraction ∧
        Digital whole fraction) ∧
      ∀ q, (q = '"' ∧ kind = .doubleQuoted ∨ q = '\'' ∧ kind = .singleQuoted) →
        ∃ body, lexeme = q :: (body ++ [q]) ∧ q ∉ body ∧
          literal? kind lexeme = some (.string (.ofList body)) := by
  obtain ⟨pieces, rest, hcut, hrest⟩ := exists_cut source.toList
  refine ⟨fun ts => ⟨fun h => ?_, ?_⟩, fun e => ⟨fun h => ?_, ?_⟩, ?_⟩
  · obtain rfl | ⟨hne, hstuck⟩ := hrest
    · rw [hcut.scan_eq_ok] at h
      exact ⟨pieces, hcut, (Except.ok.inj h).symm⟩
    · obtain ⟨c, rest, rfl⟩ := List.exists_cons_of_ne_nil hne
      rw [hcut.scan_eq_error hstuck] at h
      cases h
  · rintro ⟨pieces, hcut, rfl⟩
    exact hcut.scan_eq_ok
  · obtain rfl | ⟨hne, hstuck⟩ := hrest
    · rw [hcut.scan_eq_ok] at h
      cases h
    · obtain ⟨c, rest, rfl⟩ := List.exists_cons_of_ne_nil hne
      rw [hcut.scan_eq_error hstuck] at h
      exact ⟨pieces, c, rest, hcut, hstuck, (Except.error.inj h).symm⟩
  · rintro ⟨pieces, c, rest, hcut, hstuck, rfl⟩
    exact hcut.scan_eq_error hstuck
  · intro pieces rest hcut kind lexeme hmem
    have hruled := hcut.ruled _ hmem
    refine ⟨fun word k hk => hruled.eq_keyword_iff hk, ?_, fun q hq => hruled.quoted hq⟩
    rintro rfl
    exact hruled.number

/-- A number, a word and a string on two lines, in front of a quote that nothing ends. -/
theorem scan_longest_match_openQuote :
    ∃ pieces, Cut "1.5.if'\n'\"".toList pieces ['"'] ∧
      pieces.map Prod.fst = [.number, .dot, .kwIf, .singleQuoted] ∧
      scan "1.5.if'\n'\"" = .error (.unterminatedString 2) ∧
      ∀ kind lexeme, (kind, lexeme) ∈ pieces →
        (kind = .kwIf ↔ String.ofList lexeme = "if") ∧
        (kind = .number → ∃ whole fraction, lexeme = pointed whole fraction ∧
          Digital whole fraction) ∧
        (kind = .singleQuoted → ∃ body, lexeme = '\'' :: (body ++ ['\'']) ∧ '\'' ∉ body) := by
  have htext : "1.5.if'\n'\"".toList =
      ['1', '.', '5', '.', 'i', 'f', '\'', '\n', '\'', '"'] := by decide
  have hcut : Cut "1.5.if'\n'\"".toList
      [(.number, ['1', '.', '5']), (.dot, ['.']), (.kwIf, ['i', 'f']),
        (.singleQuoted, ['\'', '\n', '\''])] ['"'] := by
    rw [htext]
    exact .of_lexeme? (n := 2) (by decide) (.of_lexeme? (n := 0) (by decide)
      (.of_lexeme? (n := 1) (by decide) (.of_lexeme? (n := 2) (by decide) .nil)))
  have hstuck : Stuck ['"'] := lexeme?_eq_none_iff.mp (by decide)
  obtain ⟨-, hfails, hlexemes⟩ := scan_longest_match "1.5.if'\n'\""
  refine ⟨_, hcut, rfl, (hfails _).mpr ⟨_, '"', [], hcut, hstuck, by decide⟩, ?_⟩
  intro kind lexeme hmem
  obtain ⟨hword, hnumber, hquoted⟩ := hlexemes _ _ hcut kind lexeme hmem
  refine ⟨hword "if" .kwIf (by decide), hnumber, fun hkind => ?_⟩
  obtain ⟨body, heq, hnot, -⟩ := hquoted '\'' (.inr ⟨rfl, hkind⟩)
  exact ⟨body, heq, hnot⟩
end Scriptlet
