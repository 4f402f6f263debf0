import Scriptlet.Proofs.Scope.Outline

/-!
# Ill-scoped programs

Scope analysis rejects a program at the first place with a fault. Whether there is such a place can
be seen from the scopes of the program one by one, without a walk: a scope must not declare a name
twice, the initialiser of one of its variables must not read this variable, and a return must stand
inside a function.

* `Outline.allScopes`: what stands in each scope of an outline.
* `Outline.allOutside`: what stands outside all functions.
* `Outline.exists_redeclares_iff`, `Outline.exists_readsItself_iff`,
  `Outline.exists_returnsOutside_iff`: each kind of fault, seen from the scopes.
* `resolve_rejects_ill_scoped`: **scope analysis rejects exactly the ill-scoped programs**, with the
  fault that comes first.
-/

namespace Scriptlet

/-! ## Scopes of an outline -/

namespace Outline

mutual

/-- What stands in each scope of a part. -/
def scopes : Outline → List (List Outline)
  | .scope _ parts => parts :: allScopes parts
  | _ => []

/-- What stands in each scope of an outline, whether inside other scopes or not. -/
def allScopes : List Outline → List (List Outline)
  | [] => []
  | part :: parts => part.scopes ++ allScopes parts

end

mutual

/-- What of a part stands outside all functions. -/
def outside : Outline → List Outline
  | .scope true _ => []
  | .scope false parts => allOutside parts
  | part => [part]

/-- What of an outline stands outside all functions. -/
def allOutside : List Outline → List Outline
  | [] => []
  | part :: parts => part.outside ++ allOutside parts

end

end Outline

/-! ## Kinds of faults -/

namespace Place

/-- A declaration of a name that the innermost scope has already. -/
def Redeclares (p : Place) : Prop :=
  ∃ x line, p.part = .declares x line ∧ x ∈ Level.innermost p.around

/-- A read of a variable in its own initialiser, inside a scope. -/
def ReadsItself (p : Place) : Prop :=
  ∃ x line b, p.part = .reads x line b (some x) ∧ p.around ≠ []

/-- A return outside all functions. -/
def ReturnsOutside (p : Place) : Prop :=
  ∃ line, p.part = .returns line ∧ p.around.any Level.isFunction = false

theorem isSome_fault? (p : Place) :
    p.fault?.isSome ↔ p.Redeclares ∨ p.ReadsItself ∨ p.ReturnsOutside := by
  obtain ⟨around, part⟩ := p
  cases part <;> simp [fault?, Redeclares, ReadsItself, ReturnsOutside]

end Place

/-! ## Faults, seen from the scopes -/

theorem Level.innermost_declare {around : List Level} (h : around ≠ []) (names : List String) :
    Level.innermost (Level.declare names around) = Level.innermost around ++ names := by
  cases around with
  | nil => exact absurd rfl h
  | cons l around => rfl

@[simp] theorem Level.declare_eq_nil_iff {around : List Level} {names : List String} :
    Level.declare names around = [] ↔ around = [] := by
  cases around <;> simp [Level.declare]

@[simp] theorem Level.any_isFunction_declare (around : List Level) (names : List String) :
    (Level.declare names around).any Level.isFunction = around.any Level.isFunction := by
  cases around <;> simp [Level.declare]

namespace Outline

mutual

theorem exists_redeclares_iff : ∀ (part : Outline) (around : List Level),
    (Level.innermost around).Nodup →
    ((∃ p ∈ places around part, p.Redeclares) ↔
      (around ≠ [] ∧ ¬ (Level.innermost around ++ part.names).Nodup) ∨
        ∃ body ∈ part.scopes, ¬ (declared body).Nodup)
  | .scope isFunction parts, around, hnodup => by
    have hparts := exists_redeclares_all_iff parts (⟨isFunction, []⟩ :: around) List.nodup_nil
    have hinner : Level.innermost (⟨isFunction, []⟩ :: around) = [] := rfl
    simpa [places, scopes, names, hnodup, hinner] using hparts
  | .declares x line, around, hnodup => by
    cases around with
    | nil => simp [places, scopes, Place.Redeclares, Level.innermost]
    | cons l around => simp [places, scopes, names, hnodup, Place.Redeclares, List.nodup_append]
  | .reads .., around, hnodup | .assigns .., around, hnodup | .returns .., around, hnodup => by
    simp [places, scopes, names, hnodup, Place.Redeclares]

/-- **A name is declared again** somewhere exactly if some scope has names that are not distinct. -/
theorem exists_redeclares_all_iff : ∀ (parts : List Outline) (around : List Level),
    (Level.innermost around).Nodup →
    ((∃ p ∈ allPlaces around parts, p.Redeclares) ↔
      (around ≠ [] ∧ ¬ (Level.innermost around ++ declared parts).Nodup) ∨
        ∃ body ∈ allScopes parts, ¬ (declared body).Nodup)
  | [], around, hnodup => by simp [allPlaces, allScopes, hnodup]
  | part :: parts, around, hnodup => by
    simp only [allPlaces, allScopes, List.mem_append, or_and_right, exists_or,
      exists_redeclares_iff part around hnodup, declared_cons, ← List.append_assoc]
    by_cases hne : around = []
    · have hparts := exists_redeclares_all_iff parts [] List.nodup_nil
      simp only [hne, Level.declare, hparts]
      simp
    -- names that are not distinct stay so, whatever follows
    · by_cases hnames : (Level.innermost around ++ part.names).Nodup
      · have hinner := Level.innermost_declare hne part.names
        have hparts := exists_redeclares_all_iff parts (Level.declare part.names around)
          (hinner ▸ hnames)
        simp only [hparts, hinner, hnames, not_true_eq_false, and_false, false_or, ne_eq,
          Level.declare_eq_nil_iff]
        exact or_left_comm
      · have hmore : ¬ (Level.innermost around ++ part.names ++ declared parts).Nodup :=
          fun h => hnames (List.nodup_append.mp h).1
        exact iff_of_true (.inl (.inl ⟨hne, hnames⟩)) (.inl ⟨hne, hmore⟩)

end

mutual

theorem exists_readsItself_iff : ∀ (part : Outline) (around : List Level),
    (∃ p ∈ places around part, p.ReadsItself) ↔
      (around ≠ [] ∧ ∃ x line b, part = .reads x line b (some x)) ∨
        ∃ body ∈ part.scopes, ∃ x line b, .reads x line b (some x) ∈ body
  | .scope isFunction parts, around => by
    have hparts := exists_readsItself_all_iff parts (⟨isFunction, []⟩ :: around)
    simpa [places, scopes] using hparts
  | .reads .., around | .declares .., around | .assigns .., around | .returns .., around => by
    simp [places, scopes, Place.ReadsItself, and_comm]

/-- **A variable is read in its own initialiser** somewhere exactly if such a read stands in some
scope. -/
theorem exists_readsItself_all_iff : ∀ (parts : List Outline) (around : List Level),
    (∃ p ∈ allPlaces around parts, p.ReadsItself) ↔
      (around ≠ [] ∧ ∃ x line b, .reads x line b (some x) ∈ parts) ∨
        ∃ body ∈ allScopes parts, ∃ x line b, .reads x line b (some x) ∈ body
  | [], around => by simp [allPlaces, allScopes]
  | part :: parts, around => by
    have hparts := exists_readsItself_all_iff parts (Level.declare part.names around)
    simp only [allPlaces, allScopes, List.mem_append, or_and_right, exists_or,
      exists_readsItself_iff part, hparts, ne_eq, Level.declare_eq_nil_iff, List.mem_cons,
      and_or_left, eq_comm (a := part)]
    exact or_or_or_comm

end

mutual

theorem exists_returnsOutside_iff : ∀ (part : Outline) (around : List Level),
    (∃ p ∈ places around part, p.ReturnsOutside) ↔
      around.any Level.isFunction = false ∧ ∃ line, .returns line ∈ part.outside
  | .scope isFunction parts, around => by
    have hparts := exists_returnsOutside_all_iff parts (⟨isFunction, []⟩ :: around)
    cases isFunction <;> simpa [places, outside] using hparts
  | .returns .., around | .reads .., around | .declares .., around | .assigns .., around => by
    simp [places, outside, Place.ReturnsOutside]

/-- **A return stands outside all functions** somewhere exactly if it is among what does. -/
theorem exists_returnsOutside_all_iff : ∀ (parts : List Outline) (around : List Level),
    (∃ p ∈ allPlaces around parts, p.ReturnsOutside) ↔
      around.any Level.isFunction = false ∧ ∃ line, .returns line ∈ allOutside parts
  | [], around => by simp [allPlaces, allOutside]
  | part :: parts, around => by
    have hparts := exists_returnsOutside_all_iff parts (Level.declare part.names around)
    simp only [allPlaces, allOutside, List.mem_append, or_and_right, exists_or,
      exists_returnsOutside_iff part, hparts, Level.any_isFunction_declare, and_or_left]

end

end Outline

/-! ## Programs -/

/-- **Scope analysis rejects exactly the ill-scoped programs.** Its error is the fault of the first
place of the program that has one. It fails if some scope declares a name twice, or the initialiser
of a variable declared in a scope reads this variable, or a return stands outside all functions,
and only then. -/
theorem resolve_rejects_ill_scoped (ss : List Stmt) :
    (resolve ss).2 = (Outline.allPlaces [] (Stmt.allOutline ss)).findSome? Place.fault? ∧
      ((resolve ss).2.isSome ↔
        (∃ body ∈ Outline.allScopes (Stmt.allOutline ss), ¬ (Outline.declared body).Nodup) ∨
        (∃ body ∈ Outline.allScopes (Stmt.allOutline ss),
          ∃ x line b, .reads x line b (some x) ∈ body) ∨
        ∃ line, .returns line ∈ Outline.allOutside (Stmt.allOutline ss)) := by
  have hfirst := (resolve_follows ss).1
  refine ⟨hfirst, ?_⟩
  rw [hfirst, Outline.fault?, List.findSome?_isSome_iff]
  simp only [Place.isSome_fault?, and_or_left, exists_or]
  rw [Outline.exists_redeclares_all_iff _ [] List.nodup_nil, Outline.exists_readsItself_all_iff,
    Outline.exists_returnsOutside_all_iff]
  simp

end Scriptlet
