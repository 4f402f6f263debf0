import Mathlib.Data.List.TakeWhile
import Scriptlet.Token.Scan
import Scriptlet.Proofs.Number.Shortest

/-!
# Lexemes and scanned texts

Which texts are lexemes of which kind, given what follows them, and what the tokens of a text are
like. A text is scanned piece by piece: `Scans P cs rest` says that tokens with the property `P`
come first, and that scanning goes on with `rest`.

* `Lexes`: a text is cut off as a lexeme before what follows it; `Scans.lexeme`: it is then scanned
  as one token.
* `Breaks`: what can follow a word or a number.
* `Token.Spelled`: **what scanning guarantees of a token**; names are words, and constants can be
  written (`spelled_of_scanFrom`).
-/

namespace Scriptlet

/-! ## Lexemes that are passed over -/

theorem take_runLength (p : Char → Bool) (cs : List Char) :
    cs.take (runLength p cs) = cs.takeWhile p :=
  (List.prefix_iff_eq_take.mp (List.takeWhile_prefix p)).symm

theorem TokenKind.ofWord_mem (word : String) :
    TokenKind.ofWord word ∈ .identifier :: keywords.map Prod.snd := by
  unfold TokenKind.ofWord
  cases h : keywords.lookup word with
  | none => exact List.mem_cons_self
  | some kind =>
    obtain ⟨before, after, hsplit, -⟩ := List.lookup_eq_some_iff.mp h
    refine List.mem_cons_of_mem _ (List.mem_map.mpr ⟨(word, kind), ?_, rfl⟩)
    rw [hsplit]
    simp

/-- A lexeme that is passed over is a comment, a run of blanks or a line break. -/
theorem skipped_cases {c : Char} {cs : List Char} {kind : TokenKind} {n : Nat}
    (h : lexeme? c cs = some (kind, n)) (hskip : kind.isSkipped) :
    (kind = .comment ∧ c = '/' ∧ (∃ ds, cs = '/' :: ds) ∧ n = runLength (· != '\n') cs) ∨
      (kind = .blank ∧ isBlank c ∧ n = runLength isBlank cs) ∨
        kind = .lineBreak ∧ c = '\n' ∧ n = 0 := by
  unfold lexeme? at h
  split at h
  case h_13 =>
    split_ifs at h with hslash
    · cases h
      refine .inl ⟨rfl, rfl, ?_, rfl⟩
      cases cs with
      | nil => cases hslash
      | cons d ds => exact ⟨ds, by rw [Option.some.inj (beq_iff_eq.mp hslash)]⟩
    · cases h
      cases hskip
  case h_14 | h_15 | h_16 | h_17 =>
    unfold withEqual at h
    split_ifs at h <;> cases h <;> cases hskip
  case h_18 | h_19 =>
    obtain ⟨_, -, heq⟩ := Option.map_eq_some_iff.mp h
    cases heq
    cases hskip
  case h_20 =>
    cases h
    exact .inr (.inr ⟨rfl, rfl, rfl⟩)
  case h_21 =>
    split_ifs at h with hblank hdigit halpha
    · cases h
      exact .inr (.inl ⟨rfl, hblank, rfl⟩)
    · cases h
      cases hskip
    · cases h
      have hmem := TokenKind.ofWord_mem (.ofList (c :: cs.take (runLength Char.isAlphanum cs)))
      generalize TokenKind.ofWord _ = kind at hmem hskip
      have hword : ∀ k ∈ TokenKind.identifier :: TokenKind.keywords.map Prod.snd,
          k.isSkipped = false := by decide
      rw [hword kind hmem] at hskip
      cases hskip
  all_goals
    cases h
    cases hskip

/-- **The lines that the scanner counts at a lexeme are the newlines in it.** -/
theorem linesPassed_eq {c : Char} {cs : List Char} {kind : TokenKind} {n : Nat}
    (h : lexeme? c cs = some (kind, n)) :
    linesPassed kind (c :: cs.take n) = (c :: cs.take n).count '\n' := by
  cases hskip : kind.isSkipped with
  | false =>
    unfold linesPassed
    split <;> first | rfl | cases hskip
  | true =>
    obtain ⟨rfl, rfl, -, rfl⟩ | ⟨rfl, hblank, rfl⟩ | ⟨rfl, rfl, rfl⟩ := skipped_cases h hskip
    · symm
      rw [linesPassed, List.count_eq_zero, take_runLength]
      intro hmem
      rcases List.mem_cons.mp hmem with heq | hmem
      · cases heq
      · simpa using List.mem_takeWhile_imp hmem
    · symm
      rw [linesPassed, List.count_eq_zero, take_runLength]
      intro hmem
      rcases List.mem_cons.mp hmem with rfl | hmem
      · cases hblank
      · exact absurd (List.mem_takeWhile_imp hmem) (by decide)
    · rfl

/-! ## Pieces of a text -/

/-- The text `cs` is cut off before `rest` as a lexeme of the given kind. -/
def Lexes (kind : TokenKind) (cs rest : List Char) : Prop :=
  ∃ c ds, cs = c :: ds ∧ lexeme? c (ds ++ rest) = some (kind, ds.length)

/-- Up to `rest`, a text is scanned as tokens that satisfy `P`, on whatever line it starts. -/
def Scans (P : List Token → Prop) (cs rest : List Char) : Prop :=
  ∀ line, ∃ us line', scanFrom line cs = (us ++ ·) <$> scanFrom line' rest ∧ P us

theorem toList_intercalate_cons (sep t : String) (ts : List String) :
    (sep.intercalate (t :: ts)).toList = t.toList ++ ts.flatMap (sep.toList ++ ·.toList) := by
  induction ts generalizing t with
  | nil => simp
  | cons u us ih => simp [String.intercalate_cons_cons, ih]

theorem scanFrom_cons {c : Char} {cs : List Char} {kind : TokenKind} {n line : Nat}
    (h : lexeme? c cs = some (kind, n)) :
    scanFrom line (c :: cs) = (fun ts => if kind.isSkipped then ts
        else ⟨kind, .ofList (c :: cs.take n), literal? kind (c :: cs.take n), line⟩ :: ts) <$>
      scanFrom (line + (c :: cs.take n).count '\n') (cs.drop n) := by
  rw [scanFrom, h]
  dsimp only
  rw [linesPassed_eq h]
  cases scanFrom (line + (c :: cs.take n).count '\n') (cs.drop n) with
  | error e => rfl
  | ok ts => split_ifs <;> rfl

section Scans

variable {P Q : List Token → Prop} {cs ds rest : List Char}

theorem Scans.nil : Scans (· = []) rest rest := by
  intro line
  refine ⟨[], line, ?_, rfl⟩
  cases scanFrom line rest <;> rfl

theorem Scans.mono (h : Scans P cs rest) (hPQ : ∀ us, P us → Q us) : Scans Q cs rest := by
  intro line
  obtain ⟨us, line', hscan, hP⟩ := h line
  exact ⟨us, line', hscan, hPQ us hP⟩

theorem Scans.append (h : Scans P cs ds) (h' : Scans Q ds rest) :
    Scans (fun us => ∃ vs ws, us = vs ++ ws ∧ P vs ∧ Q ws) cs rest := by
  intro line
  obtain ⟨vs, line₁, hscan₁, hP⟩ := h line
  obtain ⟨ws, line₂, hscan₂, hQ⟩ := h' line₁
  refine ⟨vs ++ ws, line₂, ?_, vs, ws, rfl, hP, hQ⟩
  rw [hscan₁, hscan₂]
  cases scanFrom line₂ rest with
  | error e => rfl
  | ok ts => exact congrArg Except.ok (List.append_assoc vs ws ts).symm

/-- **A lexeme is scanned as one token.** -/
theorem Scans.lexeme {kind : TokenKind} (h : Lexes kind cs ds) (hkind : kind.isSkipped = false)
    (hds : Scans P ds rest) :
    Scans (fun us => ∃ t vs, us = t :: vs ∧
      (t.kind = kind ∧ t.lexeme = .ofList cs ∧ t.literal = literal? kind cs) ∧ P vs)
      (cs ++ ds) rest := by
  obtain ⟨c, cs', rfl, hlex⟩ := h
  intro line
  obtain ⟨vs, line', hscan, hP⟩ := hds (line + (c :: cs').count '\n')
  refine ⟨⟨kind, .ofList (c :: cs'), literal? kind (c :: cs'), line⟩ :: vs, line', ?_, _, vs, rfl,
    ⟨rfl, rfl, rfl⟩, hP⟩
  rw [List.cons_append, scanFrom_cons hlex, List.take_left, List.drop_left, hscan, hkind]
  cases scanFrom line' rest <;> rfl

theorem Scans.symbol {c : Char} {kind : TokenKind} (h : lexeme? c ds = some (kind, 0))
    (hkind : kind.isSkipped = false) (hds : Scans P ds rest) :
    Scans (fun us => ∃ t vs, us = t :: vs ∧ t.kind = kind ∧ P vs) (c :: ds) rest := by
  have hlex : Lexes kind [c] ds := ⟨c, [], rfl, h⟩
  refine (Scans.lexeme hlex hkind hds).mono ?_
  rintro _ ⟨t, vs, rfl, ⟨ht, -⟩, hP⟩
  exact ⟨t, vs, rfl, ht, hP⟩

end Scans

/-! ## Runs of characters -/

theorem runLength_run {p : Char → Bool} {cs rest : List Char} (h : ∀ c ∈ cs, p c)
    (hrest : ∀ c ∈ rest.head?, p c = false) : runLength p (cs ++ rest) = cs.length := by
  rw [runLength, takeWhile_run h hrest]

/-! ## Blanks -/

theorem lexeme?_blank {c : Char} (h : isBlank c) (cs : List Char) :
    lexeme? c cs = some (.blank, runLength isBlank cs) := by
  simp only [isBlank, Bool.or_eq_true, beq_iff_eq] at h
  obtain ((rfl | rfl) | rfl) | rfl := h <;> rfl

theorem scanFrom_blank {c : Char} (h : isBlank c) (line : Nat) (cs : List Char) :
    scanFrom line (c :: cs) = scanFrom line (cs.drop (runLength isBlank cs)) := by
  have hcount : (c :: cs.take (runLength isBlank cs)).count '\n' = 0 :=
    (linesPassed_eq (lexeme?_blank h cs)).symm
  rw [scanFrom_cons (lexeme?_blank h cs), hcount]
  cases scanFrom line (cs.drop (runLength isBlank cs)) <;> rfl

theorem scanFrom_space (line : Nat) (cs : List Char) :
    scanFrom line (' ' :: cs) = scanFrom line cs := by
  rw [scanFrom_blank rfl]
  cases cs with
  | nil => rfl
  | cons c cs =>
    by_cases hc : isBlank c
    · rw [scanFrom_blank hc, runLength, List.takeWhile_cons_of_pos hc]
      rfl
    · rw [runLength, List.takeWhile_cons_of_neg hc]
      rfl

theorem scans_space {P : List Token → Prop} {cs rest : List Char} :
    Scans P (' ' :: cs) rest ↔ Scans P cs rest := by
  simp only [Scans, scanFrom_space]

theorem Scans.space {P : List Token → Prop} {cs rest : List Char} (h : Scans P cs rest) :
    Scans P (' ' :: cs) rest :=
  scans_space.mpr h

theorem Scans.keyword {P : List Token → Prop} {kind : TokenKind} {cs ds rest : List Char}
    (h : Lexes kind cs (' ' :: ds)) (hkind : kind.isSkipped = false) (hds : Scans P ds rest) :
    Scans (fun us => ∃ t vs, us = t :: vs ∧ t.kind = kind ∧ P vs) (cs ++ ' ' :: ds) rest := by
  refine (Scans.lexeme h hkind hds.space).mono ?_
  rintro _ ⟨t, vs, rfl, ⟨ht, -⟩, hP⟩
  exact ⟨t, vs, rfl, ht, hP⟩

/-! ## Words -/

theorem isDigit_of_isAlpha {c : Char} (h : c.isAlpha) : c.isDigit = false := by
  rw [Bool.eq_false_iff]
  intro hdigit
  have hletter : (decide (c.val ≥ 'A'.val ∧ c.val ≤ 'Z'.val) ||
      decide (c.val ≥ 'a'.val) && decide (c.val ≤ 'z'.val)) = true := h
  simp only [Bool.or_eq_true, Bool.and_eq_true, decide_eq_true_eq, ge_iff_le,
    UInt32.le_iff_toNat_le] at hletter
  have hnine : c.val.toNat ≤ 57 := (Char.isDigit_iff_toNat.mp hdigit).2
  have hupper : 'A'.val.toNat = 65 := rfl
  have hlower : 'a'.val.toNat = 97 := rfl
  omega

theorem isBlank_of_isAlphanum {c : Char} (h : c.isAlphanum) : isBlank c = false := by
  rw [Bool.eq_false_iff]
  intro hblank
  simp only [isBlank, Bool.or_eq_true, beq_iff_eq] at hblank
  obtain ((rfl | rfl) | rfl) | rfl := hblank <;> exact absurd h (by decide)

theorem lexeme?_of_isAlpha {c : Char} (h : c.isAlpha) (cs : List Char) :
    lexeme? c cs = some (.ofWord (.ofList (c :: cs.takeWhile Char.isAlphanum)),
      runLength Char.isAlphanum cs) := by
  have hblank : isBlank c = false := isBlank_of_isAlphanum (by rw [Char.isAlphanum, h]; rfl)
  have hdigit := isDigit_of_isAlpha h
  unfold lexeme?
  split
  case h_21 => simp [hblank, hdigit, h, take_runLength]
  all_goals exact absurd h (by decide)

/-- What can follow a word or a number: neither a letter nor a digit, nor a point before one. -/
structure Breaks (rest : List Char) : Prop where
  head : ∀ c ∈ rest.head?, c.isAlphanum = false
  point : ∀ d ds, rest = '.' :: d :: ds → d.isDigit = false

theorem breaks_nil : Breaks [] := ⟨nofun, nofun⟩

theorem breaks_cons {c : Char} {rest : List Char} (h : c.isAlphanum = false) (hc : c ≠ '.') :
    Breaks (c :: rest) := by
  refine ⟨?_, ?_⟩
  · rintro _ ⟨⟩
    exact h
  · rintro d ds ⟨⟩
    exact absurd rfl hc

/-- A letter, and then letters and digits. -/
def IsWord (cs : List Char) : Prop := ∃ c ds, cs = c :: ds ∧ c.isAlpha ∧ ∀ d ∈ ds, d.isAlphanum

/-- A word that is not reserved. -/
def IsName (name : String) : Prop :=
  IsWord name.toList ∧ TokenKind.ofWord name = .identifier

theorem breaks_point {cs rest : List Char} (h : IsWord cs) : Breaks ('.' :: (cs ++ rest)) := by
  obtain ⟨c, ds, rfl, hc, -⟩ := h
  refine ⟨?_, ?_⟩
  · rintro _ ⟨⟩
    rfl
  · rintro d es ⟨⟩
    exact isDigit_of_isAlpha hc

theorem IsWord.lexes {cs rest : List Char} (h : IsWord cs) (hrest : Breaks rest) :
    Lexes (.ofWord (.ofList cs)) cs rest := by
  obtain ⟨c, ds, rfl, hc, hds⟩ := h
  refine ⟨c, ds, rfl, ?_⟩
  rw [lexeme?_of_isAlpha hc, takeWhile_run hds hrest.head, runLength_run hds hrest.head]

theorem IsName.lexes {name : String} {rest : List Char} (h : IsName name) (hrest : Breaks rest) :
    Lexes .identifier name.toList rest := by
  have hlex := h.1.lexes hrest
  rwa [String.ofList_toList, h.2] at hlex

theorem Scans.name {P : List Token → Prop} {name : String} {ds rest : List Char} (h : IsName name)
    (hbreaks : Breaks ds) (hds : Scans P ds rest) :
    Scans (fun us => ∃ n vs, us = n :: vs ∧ (n.kind = .identifier ∧ n.lexeme = name) ∧ P vs)
      (name.toList ++ ds) rest := by
  refine (Scans.lexeme (h.lexes hbreaks) rfl hds).mono ?_
  rintro _ ⟨n, vs, rfl, ⟨hn, hlexeme, -⟩, hP⟩
  exact ⟨n, vs, rfl, ⟨hn, hlexeme.trans String.ofList_toList⟩, hP⟩

/-! ## Numbers -/

theorem lexeme?_of_isDigit {c : Char} (h : c.isDigit) (cs : List Char) :
    lexeme? c cs = some (.number, numberLength cs) := by
  have hblank : isBlank c = false := isBlank_of_isAlphanum (by simp [Char.isAlphanum, h])
  unfold lexeme?
  split
  case h_21 => simp [hblank, h]
  all_goals exact absurd h (by decide)

theorem isDigit_eq_false_of_breaks {rest : List Char} (h : Breaks rest) :
    ∀ c ∈ rest.head?, c.isDigit = false := by
  intro c hc
  have halnum := h.head c hc
  simp only [Char.isAlphanum, Bool.or_eq_false_iff] at halnum
  exact halnum.2

/-- A number without a point ends before a point that no digit follows. -/
theorem numberLength_run {ds rest : List Char} (h : ∀ d ∈ ds, d.isDigit) (hrest : Breaks rest) :
    numberLength (ds ++ rest) = ds.length := by
  unfold numberLength
  dsimp only
  rw [runLength_run h (isDigit_eq_false_of_breaks hrest), List.drop_left]
  split
  · rename_i d es
    rw [if_neg (by simp [hrest.point d es rfl])]
  · rfl

theorem numberLength_pointed {ds fs rest : List Char} {f : Char} (h : ∀ d ∈ ds, d.isDigit)
    (hf : f.isDigit) (hfs : ∀ d ∈ fs, d.isDigit) (hrest : Breaks rest) :
    numberLength (ds ++ '.' :: f :: fs ++ rest) = (ds ++ '.' :: f :: fs).length := by
  have hpoint : ∀ c ∈ ('.' :: f :: fs ++ rest).head?, c.isDigit = false := by
    rintro _ ⟨⟩
    rfl
  unfold numberLength
  dsimp only
  rw [List.append_assoc, runLength_run h hpoint, List.drop_left]
  show (if f.isDigit then ds.length + 2 + runLength Char.isDigit (fs ++ rest) else ds.length) = _
  rw [if_pos hf, runLength_run hfs (isDigit_eq_false_of_breaks hrest)]
  simp only [List.length_append, List.length_cons]
  omega

theorem Digital.lexes {whole fraction rest : List Char} (h : Digital whole fraction)
    (hrest : Breaks rest) : Lexes .number (pointed whole fraction) rest := by
  obtain ⟨hne, hwhole, hfraction⟩ := h
  obtain ⟨c, ds, rfl⟩ := List.exists_cons_of_ne_nil hne
  rw [List.forall_mem_cons] at hwhole
  cases fraction with
  | nil => exact ⟨c, ds, rfl, by rw [lexeme?_of_isDigit hwhole.1, numberLength_run hwhole.2 hrest]⟩
  | cons f fs =>
    rw [List.forall_mem_cons] at hfraction
    refine ⟨c, ds ++ '.' :: f :: fs, rfl, ?_⟩
    rw [lexeme?_of_isDigit hwhole.1,
      numberLength_pointed hwhole.2 hfraction.1 hfraction.2 hrest]

/-- **The constant that digits write.** -/
theorem literal?_pointed {whole fraction : List Char} (h : Digital whole fraction) :
    literal? .number (pointed whole fraction) =
      some (.number (Decimal.ofDigits whole fraction).toNumber) := by
  have hwhole : ∀ c ∈ whole, (c != '.') = true := by
    intro c hc
    rw [bne_iff_ne]
    rintro rfl
    exact absurd (h.whole _ hc) (by decide)
  have hrun : (pointed whole fraction).takeWhile (· != '.') = whole := by
    cases fraction with
    | nil => exact List.takeWhile_eq_self_iff.mpr hwhole
    | cons f fs => exact takeWhile_run hwhole (by rintro _ ⟨⟩; rfl)
  have hdrop : (pointed whole fraction).drop (whole.length + 1) = fraction := by
    cases fraction with
    | nil => exact List.drop_eq_nil_of_le (Nat.le_succ _)
    | cons f fs =>
      show (whole ++ '.' :: f :: fs).drop (whole.length + 1) = f :: fs
      rw [← List.drop_drop, List.drop_left]
      rfl
  show some (Literal.number _) = _
  rw [hrun, hdrop]

/-! ## Strings -/

theorem quotedLength?_run {quote : Char} {body : List Char} (h : quote ∉ body)
    (rest : List Char) : quotedLength? quote (body ++ quote :: rest) = some (body.length + 1) := by
  have hbody : ∀ c ∈ body, (c != quote) = true := by
    intro c hc
    rw [bne_iff_ne]
    rintro rfl
    exact h hc
  unfold quotedLength?
  dsimp only
  rw [runLength_run hbody (by rintro _ ⟨⟩; simp), if_pos (by simp)]

theorem take_of_quotedLength? {quote : Char} {cs : List Char} {n : Nat}
    (h : quotedLength? quote cs = some n) :
    ∃ body, cs.take n = body ++ [quote] ∧ quote ∉ body := by
  have hmem : quote ∈ cs := by
    by_contra hno
    have hrun : cs.takeWhile (· != quote) = cs := by
      rw [List.takeWhile_eq_self_iff]
      rintro c hc
      exact bne_iff_ne.mpr fun heq => hno (heq ▸ hc)
    rw [quotedLength?, runLength, hrun, if_neg (Nat.lt_irrefl _)] at h
    cases h
  obtain ⟨body, rest, rfl, hbody⟩ := List.eq_append_cons_of_mem hmem
  rw [quotedLength?_run hbody] at h
  cases h
  exact ⟨body, by rw [List.take_length_add_append]; rfl, hbody⟩

theorem lexes_quoted {quote : Char} {kind : TokenKind} {body : List Char}
    (hkind : ∀ cs, lexeme? quote cs = (quotedLength? quote cs).map (kind, ·)) (h : quote ∉ body)
    (rest : List Char) : Lexes kind (quote :: (body ++ [quote])) rest := by
  refine ⟨quote, body ++ [quote], rfl, ?_⟩
  rw [hkind, List.append_assoc, List.singleton_append, quotedLength?_run h, List.length_append]
  rfl

/-! ## Scanned tokens -/

/-- A constant that some text writes: a number that is neither negative nor a NaN, or a string
that does not hold both quotes. -/
def Literal.Writable : Literal → Prop
  | .number x => x.bits.toNat ≤ Number.infinityBits
  | .string s => '"' ∉ s.toList ∨ '\'' ∉ s.toList
  | .bool _ | .null => True

/-- What scanning guarantees of a token. -/
structure Token.Spelled (t : Token) : Prop where
  name : t.kind = .identifier → IsName t.lexeme
  constant : ∀ v ∈ t.literal, v.Writable

theorem lexeme?_ne_endOfInput {c : Char} {cs : List Char} {kind : TokenKind} {n : Nat}
    (h : lexeme? c cs = some (kind, n)) : kind ≠ .endOfInput := by
  unfold lexeme? at h
  split at h
  case h_13 => split_ifs at h <;> cases h <;> nofun
  case h_14 | h_15 | h_16 | h_17 =>
    unfold withEqual at h
    split_ifs at h <;> cases h <;> nofun
  case h_18 | h_19 =>
    obtain ⟨_, -, heq⟩ := Option.map_eq_some_iff.mp h
    cases heq
    nofun
  case h_21 =>
    split_ifs at h with hblank hdigit halpha
    · cases h
      nofun
    · cases h
      nofun
    · cases h
      intro hend
      have hmem := TokenKind.ofWord_mem (.ofList (c :: cs.take (runLength Char.isAlphanum cs)))
      rw [hend] at hmem
      revert hmem
      decide
  all_goals
    cases h
    nofun

theorem spelled_of_none {t : Token} (hkind : t.kind ≠ .identifier) (h : t.literal = none) :
    t.Spelled :=
  ⟨fun hk => absurd hk hkind, by rw [h]; nofun⟩

theorem spelled_of_word {c : Char} {cs : List Char} {line : Nat} (hc : c.isAlpha)
    (hcs : ∀ d ∈ cs, d.isAlphanum) :
    Token.Spelled ⟨.ofWord (.ofList (c :: cs)), .ofList (c :: cs),
      literal? (.ofWord (.ofList (c :: cs))) (c :: cs), line⟩ := by
  refine ⟨fun hkind => ⟨?_, hkind⟩, ?_⟩
  · rw [String.toList_ofList]
    exact ⟨c, cs, rfl, hc, hcs⟩
  · have hmem := TokenKind.ofWord_mem (.ofList (c :: cs))
    generalize TokenKind.ofWord (.ofList (c :: cs)) = kind at hmem
    have hword : ∀ k ∈ TokenKind.identifier :: TokenKind.keywords.map Prod.snd,
        ∀ v ∈ literal? k (c :: cs), v.Writable := by
      simp [TokenKind.keywords, literal?, Literal.Writable]
    exact hword kind hmem

/-- **What one lexeme guarantees of its token.** -/
theorem spelled_of_lexeme? {c : Char} {cs : List Char} {kind : TokenKind} {n line : Nat}
    (h : lexeme? c cs = some (kind, n)) :
    Token.Spelled ⟨kind, .ofList (c :: cs.take n), literal? kind (c :: cs.take n), line⟩ := by
  have hquoted : ∀ quote, (quote = '"' ∨ quote = '\'') → quotedLength? quote cs = some n →
      (Literal.string (.ofList (c :: cs.take n).tail.dropLast)).Writable := by
    intro quote hquote hn
    obtain ⟨body, htake, hbody⟩ := take_of_quotedLength? hn
    rw [Literal.Writable, String.toList_ofList, htake, List.tail_cons, List.dropLast_concat]
    obtain rfl | rfl := hquote
    · exact .inl hbody
    · exact .inr hbody
  unfold lexeme? at h
  split at h
  case h_13 =>
    split_ifs at h <;> cases h <;> exact spelled_of_none nofun rfl
  case h_14 | h_15 | h_16 | h_17 =>
    unfold withEqual at h
    split_ifs at h <;> cases h <;> exact spelled_of_none nofun rfl
  case h_18 =>
    obtain ⟨_, hn, heq⟩ := Option.map_eq_some_iff.mp h
    cases heq
    exact ⟨nofun, by rintro _ ⟨⟩; exact hquoted '"' (.inl rfl) hn⟩
  case h_19 =>
    obtain ⟨_, hn, heq⟩ := Option.map_eq_some_iff.mp h
    cases heq
    exact ⟨nofun, by rintro _ ⟨⟩; exact hquoted '\'' (.inr rfl) hn⟩
  case h_21 =>
    split_ifs at h with hblank hdigit halpha
    · cases h
      exact spelled_of_none nofun rfl
    · cases h
      refine ⟨nofun, ?_⟩
      rintro _ ⟨⟩
      exact Decimal.bits_toNumber_le _
    · cases h
      refine spelled_of_word halpha fun d hd => ?_
      rw [take_runLength] at hd
      exact List.mem_takeWhile_imp hd
  all_goals
    cases h
    exact spelled_of_none nofun rfl

/-- **What scanning guarantees of the tokens of a text.** -/
theorem spelled_of_scanFrom {line : Nat} {cs : List Char} {ts : List Token}
    (h : scanFrom line cs = .ok ts) : ∀ t ∈ ts, t.Spelled := by
  fun_induction scanFrom line cs generalizing ts with
  | case1 line =>
    cases h
    intro t ht
    rw [List.mem_singleton.mp ht]
    exact spelled_of_none nofun rfl
  | case2 | case3 => cases h
  | case4 line c cs kind n hlex lexeme us hmore hskip =>
    rename_i ih
    cases h
    exact ih hmore
  | case5 line c cs kind n hlex lexeme us hmore hskip =>
    rename_i ih
    cases h
    intro t ht
    rcases List.mem_cons.mp ht with rfl | ht
    · exact spelled_of_lexeme? hlex
    · exact ih hmore t ht

end Scriptlet
