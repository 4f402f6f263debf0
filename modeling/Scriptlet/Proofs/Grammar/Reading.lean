import Mathlib.Tactic.Common
import Scriptlet.Grammar.Parser

/-!
# What parsers read

A parser reads a result if it takes tokens from the front, meets no error on its way and leaves the
rest. For each way to build parsers, an equivalence says what is read.

* `Parser.Reads`: **a parser reads a result and leaves a rest**.
* `Parser.Grows`: the turns of a loop that extends its result; `Parser.reads_extend`: the loop takes
  turns as long as it can.
* `Listed`: items between commas; `Parser.reads_commaList`: such a list in parentheses is read item
  by item.
-/

namespace Scriptlet

variable {α β : Type} {ts rest : List Token}

/-! ## Lists of items -/

/-- Items, each after a comma. -/
inductive Commas (Item : α → List Token → Prop) : List α → List Token → Prop
  | nil : Commas Item [] []
  | cons {t : Token} {a : α} {us : List Token} {as : List α} {vs : List Token}
      (comma : t.kind = .comma) (item : Item a us) (more : Commas Item as vs) :
    Commas Item (a :: as) (t :: us ++ vs)

/-- Items between commas. -/
inductive Listed (Item : α → List Token → Prop) : List α → List Token → Prop
  | nil : Listed Item [] []
  | cons {a : α} {us : List Token} {as : List α} {vs : List Token} (item : Item a us)
      (more : Commas Item as vs) : Listed Item (a :: as) (us ++ vs)

/-- Items one after another. -/
inductive Chained (Item : α → List Token → Prop) : List α → List Token → Prop
  | nil : Chained Item [] []
  | cons {a : α} {us : List Token} {as : List α} {vs : List Token} (item : Item a us)
      (more : Chained Item as vs) : Chained Item (a :: as) (us ++ vs)

section Lists

variable {Item : α → List Token → Prop} {as : List α}

theorem Commas.concat {vs us : List Token} {t : Token} {a : α} (h : Commas Item as vs)
    (ht : t.kind = .comma) (ha : Item a us) : Commas Item (as ++ [a]) (vs ++ t :: us) := by
  induction h with
  | nil => simpa using Commas.cons ht ha .nil
  | cons ht' ha' _ ih => simpa using Commas.cons ht' ha' ih

theorem Commas.stop {Stop : α → List Token → Prop} {a : α} {vs : List Token} {t : Token}
    (h : Commas Item as vs)
    (hstop : ∀ a t ts, t.kind = .comma ∨ t.kind = .rightParen → Stop a (t :: ts))
    (ht : t.kind = .rightParen) : Stop a (vs ++ t :: rest) := by
  cases h with
  | nil => exact hstop _ _ _ (.inr ht)
  | cons hcomma => exact hstop _ _ _ (.inl hcomma)

theorem Commas.exists_sublist (h : Commas Item as ts) :
    ∀ a ∈ as, ∃ us, Item a us ∧ us.Sublist ts := by
  induction h with
  | nil => nofun
  | cons _ ha _ ih =>
    intro a hmem
    rcases List.mem_cons.mp hmem with rfl | hmem
    · exact ⟨_, ha, (List.sublist_append_left _ _).cons _⟩
    · obtain ⟨us, hitem, hsub⟩ := ih a hmem
      exact ⟨us, hitem, hsub.trans ((List.sublist_append_right _ _).cons _)⟩

theorem Listed.exists_sublist (h : Listed Item as ts) :
    ∀ a ∈ as, ∃ us, Item a us ∧ us.Sublist ts := by
  cases h with
  | nil => nofun
  | cons ha hmore =>
    intro a hmem
    rcases List.mem_cons.mp hmem with rfl | hmem
    · exact ⟨_, ha, List.sublist_append_left _ _⟩
    · obtain ⟨us, hitem, hsub⟩ := hmore.exists_sublist a hmem
      exact ⟨us, hitem, hsub.trans (List.sublist_append_right _ _)⟩

theorem Chained.exists_sublist (h : Chained Item as ts) :
    ∀ a ∈ as, ∃ us, Item a us ∧ us.Sublist ts := by
  induction h with
  | nil => nofun
  | cons ha _ ih =>
    intro a hmem
    rcases List.mem_cons.mp hmem with rfl | hmem
    · exact ⟨_, ha, List.sublist_append_left _ _⟩
    · obtain ⟨us, hitem, hsub⟩ := ih a hmem
      exact ⟨us, hitem, hsub.trans (List.sublist_append_right _ _)⟩

theorem Listed.exists_item (h : Listed Item as ts) : ∀ a ∈ as, ∃ us, Item a us ∧ us ⊆ ts :=
  fun a ha => (h.exists_sublist a ha).imp fun _ hus => hus.imp_right List.Sublist.subset

theorem Chained.exists_item (h : Chained Item as ts) : ∀ a ∈ as, ∃ us, Item a us ∧ us ⊆ ts :=
  fun a ha => (h.exists_sublist a ha).imp fun _ hus => hus.imp_right List.Sublist.subset

theorem commas_and {P : α → Prop} :
    Commas (fun a us => Item a us ∧ P a) as ts ↔ Commas Item as ts ∧ ∀ a ∈ as, P a := by
  constructor
  · intro h
    induction h with
    | nil => exact ⟨.nil, by simp⟩
    | cons ht ha _ ih => exact ⟨.cons ht ha.1 ih.1, by simpa using ⟨ha.2, ih.2⟩⟩
  · rintro ⟨h, hP⟩
    induction h with
    | nil => exact .nil
    | cons ht ha _ ih =>
      obtain ⟨hPa, hP⟩ := List.forall_mem_cons.mp hP
      exact .cons ht ⟨ha, hPa⟩ (ih hP)

theorem listed_and {P : α → Prop} :
    Listed (fun a us => Item a us ∧ P a) as ts ↔ Listed Item as ts ∧ ∀ a ∈ as, P a := by
  constructor
  · intro h
    cases h with
    | nil => exact ⟨.nil, by simp⟩
    | cons ha hmore =>
      obtain ⟨hmore, hP⟩ := commas_and.mp hmore
      exact ⟨.cons ha.1 hmore, by simpa using ⟨ha.2, hP⟩⟩
  · rintro ⟨h, hP⟩
    cases h with
    | nil => exact .nil
    | cons ha hmore =>
      obtain ⟨hPa, hP⟩ := List.forall_mem_cons.mp hP
      exact .cons ⟨ha, hPa⟩ (commas_and.mpr ⟨hmore, hP⟩)

theorem chained_and {P : α → Prop} :
    Chained (fun a us => Item a us ∧ P a) as ts ↔ Chained Item as ts ∧ ∀ a ∈ as, P a := by
  constructor
  · intro h
    induction h with
    | nil => exact ⟨.nil, by simp⟩
    | cons ha _ ih => exact ⟨.cons ha.1 ih.1, by simpa using ⟨ha.2, ih.2⟩⟩
  · rintro ⟨h, hP⟩
    induction h with
    | nil => exact .nil
    | cons ha _ ih =>
      obtain ⟨hPa, hP⟩ := List.forall_mem_cons.mp hP
      exact .cons ⟨ha, hPa⟩ (ih hP)

end Lists

namespace Parser

/-- **A parser reads `a`** from the front of `ts`, without any error, and leaves `rest`. -/
def Reads (p : Parser α) (ts : List Token) (a : α) (rest : List Token) : Prop :=
  p.run ts = ⟨.ok a, [], rest⟩

/-! ## Sequencing -/

theorem reads_succeed {a b : α} : (succeed a).Reads ts b rest ↔ b = a ∧ rest = ts := by
  simp only [Reads, succeed, Reply.mk.injEq, Except.ok.injEq, true_and]
  exact and_congr eq_comm eq_comm

theorem reads_pure {a b : α} : (pure a : Parser α).Reads ts b rest ↔ b = a ∧ rest = ts :=
  reads_succeed

theorem not_reads_fail {e : ParseError} {a : α} : ¬ (fail e).Reads ts a rest := by
  simp [Reads, fail]

theorem not_reads_unexpected {expected : Expectation} {a : α} :
    ¬ (unexpected expected).Reads ts a rest := by
  simp [Reads, unexpected]

theorem reads_andThen {p : Parser α} {f : α → Parser β} {b : β} :
    (p.andThen f).Reads ts b rest ↔ ∃ a mid, p.Reads ts a mid ∧ (f a).Reads mid b rest := by
  simp only [Reads, andThen, Reply.andThen]
  rcases p.run ts with ⟨_ | a, errors, mid⟩
  · simp
  · simp only [Reply.after, Reply.mk.injEq, Except.ok.injEq, List.append_eq_nil_iff]
    constructor
    · rintro ⟨hr, ⟨he, he'⟩, hrest⟩
      refine ⟨a, mid, ⟨rfl, he, rfl⟩, ?_⟩
      cases h : (f a).run mid
      simp_all
    · rintro ⟨_, _, ⟨rfl, he, rfl⟩, hb⟩
      simp [hb, he]

theorem reads_bind {p : Parser α} {f : α → Parser β} {b : β} :
    (p >>= f).Reads ts b rest ↔ ∃ a mid, p.Reads ts a mid ∧ (f a).Reads mid b rest :=
  reads_andThen

/-! ## Single tokens -/

theorem reads_nextLine {n : Nat} :
    nextLine.Reads ts n rest ↔ n = ts.head?.elim 0 Token.line ∧ rest = ts := by
  simp only [Reads, nextLine, Reply.mk.injEq, Except.ok.injEq, true_and]
  exact and_congr eq_comm eq_comm

theorem reads_headed {choice : Token → Option (Parser α)} {otherwise : Parser α} {a : α} :
    (headed choice otherwise).Reads ts a rest ↔
      (∃ t us p, ts = t :: us ∧ choice t = some p ∧ p.Reads us a rest) ∨
        (∀ t ∈ ts.head?, choice t = none) ∧ otherwise.Reads ts a rest := by
  cases ts with
  | nil => simp [Reads, headed]
  | cons t us =>
    simp only [Reads, headed, List.head?_cons, Option.mem_some_iff, forall_eq', List.cons.injEq]
    cases h : choice t with
    | none => simp_all
    | some p => simp_all

theorem reads_expect {kind : TokenKind} {expected : Expectation} {t : Token} :
    (expect kind expected).Reads ts t rest ↔ ts = t :: rest ∧ t.kind = kind := by
  rw [expect, reads_headed]
  constructor
  · rintro (⟨u, us, p, rfl, hp, h⟩ | ⟨-, h⟩)
    · split_ifs at hp with hk
      cases hp
      obtain ⟨rfl, rfl⟩ := reads_succeed.mp h
      exact ⟨rfl, hk⟩
    · exact absurd h not_reads_unexpected
  · rintro ⟨rfl, hk⟩
    exact .inl ⟨t, rest, _, rfl, if_pos hk, reads_succeed.mpr ⟨rfl, rfl⟩⟩

theorem reads_name {expected : Expectation} {n : String} :
    (name expected).Reads ts n rest ↔
      ∃ t, ts = t :: rest ∧ t.kind = .identifier ∧ n = t.lexeme := by
  simp only [name, reads_bind, reads_expect, reads_pure]
  constructor
  · rintro ⟨t, _, ⟨rfl, hk⟩, rfl, rfl⟩
    exact ⟨t, rfl, hk, rfl⟩
  · rintro ⟨t, rfl, hk, rfl⟩
    exact ⟨t, rest, ⟨rfl, hk⟩, rfl, rfl⟩

/-! ## Repetition -/

/-- Turns of a loop, from `a` before `ts` on. -/
inductive Grows (more : α → Token → Option (Parser α)) (a : α) (ts : List Token) :
    α → List Token → Prop
  | refl : Grows more a ts a ts
  | step {b c : α} {t : Token} {us rest : List Token} {p : Parser α}
      (grows : Grows more a ts b (t :: us)) (announced : more b t = some p)
      (reads : p.Reads us c rest) : Grows more a ts c rest

theorem Grows.head {more : α → Token → Option (Parser α)} {a b c : α} {t : Token}
    {us mid : List Token} {p : Parser α} (hmore : more a t = some p) (hp : p.Reads us b mid)
    (h : Grows more b mid c rest) : Grows more a (t :: us) c rest := by
  induction h with
  | refl => exact .step .refl hmore hp
  | step _ hmore' hp' ih => exact .step ih hmore' hp'

theorem Reads.extend_cons {more : α → Token → Option (Parser α)} {a b c : α} {t : Token}
    {us mid : List Token} {p : Parser α} (h : (extend more b).Reads mid c rest)
    (hmore : more a t = some p) (hp : p.Reads us b mid) :
    (extend more a).Reads (t :: us) c rest := by
  simp only [Reads, extend] at h hp ⊢
  rw [extendRun]
  simp only [hmore, hp, h, Reply.after, List.append_nil]

theorem Grows.reads_extend {more : α → Token → Option (Parser α)} {a b c : α}
    {mid : List Token} (h : Grows more a ts b mid) (hb : (extend more b).Reads mid c rest) :
    (extend more a).Reads ts c rest := by
  induction h with
  | refl => exact hb
  | step _ hmore hp ih => exact ih (hb.extend_cons hmore hp)

/-- **A loop takes turns as long as the next token announces one.** -/
theorem reads_extend {more : α → Token → Option (Parser α)} {a b : α} :
    (extend more a).Reads ts b rest ↔
      Grows more a ts b rest ∧ ∀ t ∈ rest.head?, more b t = none := by
  constructor
  · intro h
    simp only [Reads, extend] at h
    fun_induction extendRun more a ts with
    | case1 a =>
      cases h
      exact ⟨.refl, by simp⟩
    | case2 a t us hmore =>
      cases h
      exact ⟨.refl, by simpa using hmore⟩
    | case3 a t us p hmore e he => cases h
    | case4 a t us p hmore c hc ih =>
      simp only [Reply.after, Reply.mk.injEq, List.append_eq_nil_iff] at h
      obtain ⟨hb, ⟨he, he'⟩, hrest⟩ := h
      have hrun : extendRun more c (p.run us).rest = ⟨.ok b, [], rest⟩ := by
        cases hr : extendRun more c (p.run us).rest
        simp_all
      have hp : p.Reads us c (p.run us).rest := by
        rw [Reads]
        cases hr : p.run us
        simp_all
      exact ⟨.head hmore hp (ih hrun).1, (ih hrun).2⟩
  · rintro ⟨hgrows, hstop⟩
    refine hgrows.reads_extend ?_
    simp only [Reads, extend]
    cases rest with
    | nil => rw [extendRun]
    | cons t us => rw [extendRun, hstop t rfl]

/-! ## Recognition -/

/-- **A parser reads exactly the items**, each written by the tokens it takes, and leaves what the
item cannot go on with. -/
def Recognizes (p : Parser α) (Item Stop : α → List Token → Prop) : Prop :=
  ∀ ts a rest, p.Reads ts a rest ↔ ∃ used, ts = used ++ rest ∧ Item a used ∧ Stop a rest

/-- The turns of the loop over a list. -/
def nextItem (item : Parser α) (items : List α) (t : Token) : Option (Parser (List α)) :=
  if t.kind = .comma then some (do let next ← item; return items ++ [next]) else none

section CommaList

variable {item : Parser α} {Item Stop : α → List Token → Prop}

theorem Grows.commas (hitem : item.Recognizes Item Stop) {first items : List α}
    (h : Grows (nextItem item) first ts items rest) :
    ∃ as vs, items = first ++ as ∧ ts = vs ++ rest ∧ Commas Item as vs := by
  induction h with
  | refl => exact ⟨[], [], by simp, rfl, .nil⟩
  | step _ hmore hreads ih =>
    obtain ⟨as, vs, rfl, rfl, hcommas⟩ := ih
    unfold nextItem at hmore
    split_ifs at hmore with hcomma
    cases hmore
    obtain ⟨a, mid, ha, rfl, rfl⟩ := by simpa only [reads_bind, reads_pure] using hreads
    obtain ⟨us, rfl, ha, -⟩ := (hitem _ _ _).mp ha
    exact ⟨as ++ [a], vs ++ _ :: us, by simp, by simp, hcommas.concat hcomma ha⟩

theorem grows_of_commas (hitem : item.Recognizes Item Stop)
    (hstop : ∀ a t ts, t.kind = .comma ∨ t.kind = .rightParen → Stop a (t :: ts))
    {as : List α} {vs : List Token} (h : Commas Item as vs) (first : List α) {t : Token}
    (ht : t.kind = .rightParen) :
    Grows (nextItem item) first (vs ++ t :: rest) (first ++ as) (t :: rest) := by
  induction h generalizing first with
  | nil => simpa using Grows.refl
  | @cons u a us as vs hu ha hmore ih =>
    have hread : (do let next ← item; return first ++ [next] : Parser (List α)).Reads
        (us ++ (vs ++ t :: rest)) (first ++ [a]) (vs ++ t :: rest) := by
      rw [reads_bind]
      exact ⟨a, _, (hitem _ _ _).mpr ⟨us, rfl, ha, hmore.stop hstop ht⟩, reads_pure.mpr ⟨rfl, rfl⟩⟩
    have hgrows := ih (first ++ [a])
    rw [List.append_assoc] at hgrows
    simpa using Grows.head (if_pos hu) hread hgrows

/-- **A list up to its closing parenthesis** is read item by item. -/
theorem reads_commaList (hitem : item.Recognizes Item Stop)
    (hstop : ∀ a t ts, t.kind = .comma ∨ t.kind = .rightParen → Stop a (t :: ts))
    (hfirst : ∀ a us, Item a us → ∃ t vs, us = t :: vs ∧ t.kind ≠ .rightParen) {as : List α} :
    (commaList item).Reads ts as rest ↔
      ∃ used t, ts = used ++ t :: rest ∧ Listed Item as used ∧ t.kind = .rightParen := by
  change (headed _ (do
    let first ← item
    let items ← extend (nextItem item) [first]
    let _ ← expect .rightParen .listSeparator
    return items)).Reads ts as rest ↔ _
  simp only [reads_headed, reads_bind, reads_expect, reads_extend, reads_pure]
  constructor
  · rintro (⟨t, us, p, rfl, hp, h⟩ |
      ⟨-, a, _, ha, items, mid, ⟨hgrows, -⟩, t, _, ⟨rfl, ht⟩, rfl, rfl⟩)
    · split_ifs at hp with ht
      cases hp
      obtain ⟨rfl, rfl⟩ := reads_succeed.mp h
      exact ⟨[], t, rfl, .nil, ht⟩
    · obtain ⟨us, rfl, hus, -⟩ := (hitem _ _ _).mp ha
      obtain ⟨as, vs, rfl, rfl, hcommas⟩ := hgrows.commas hitem
      exact ⟨us ++ vs, t, by simp, .cons hus hcommas, ht⟩
  · rintro ⟨used, t, rfl, hlisted, ht⟩
    cases hlisted with
    | nil => exact .inl ⟨t, rest, _, rfl, if_pos ht, reads_succeed.mpr ⟨rfl, rfl⟩⟩
    | @cons a us as vs ha hcommas =>
      have hnext : Stop a (vs ++ t :: rest) := hcommas.stop hstop ht
      refine .inr ⟨?_, a, vs ++ t :: rest, (hitem _ _ _).mpr ⟨us, by simp, ha, hnext⟩, a :: as,
        t :: rest, ⟨grows_of_commas hitem hstop hcommas [a] ht, ?_⟩, t, rest, ⟨rfl, ht⟩, rfl, rfl⟩
      · obtain ⟨u, us, rfl, hu⟩ := hfirst a us ha
        simpa using hu
      · simp [nextItem, ht]

end CommaList

end Parser

end Scriptlet
