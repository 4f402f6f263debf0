import Scriptlet.Proofs.Scope.Outline

/-!
# Lexical binding

A reference belongs to the innermost scope around it that declares its name before it. Expressions
declare nothing, so that the order in which the references of one expression are met does not
matter here.

* `Level.find_eq_toplevel_iff`, `Level.find_eq_enclosing_iff`: the innermost scope that has declared
  a name, by the scopes inside and outside of it.
* `resolve_binds_lexically`: **scope analysis computes lexical binding**.
-/

namespace Scriptlet

section Find

variable {around : List Level} {x : String} {d : Nat}

theorem Level.find_ne_unresolved (around : List Level) (x : String) :
    Level.find around x ≠ .unresolved := by
  unfold Level.find
  split <;> exact nofun

theorem Level.find_eq_toplevel_iff :
    Level.find around x = .toplevel ↔ ∀ l ∈ around, x ∉ l.names := by
  have hnone : around.findIdx? (fun l => decide (x ∈ l.names)) = none ↔
      ∀ l ∈ around, x ∉ l.names := by simp [List.findIdx?_eq_none_iff]
  rw [← hnone, Level.find]
  cases around.findIdx? (fun l => decide (x ∈ l.names)) <;> simp

/-- **A name is found `d` scopes outward** if the scope there has declared it and none of the `d`
scopes inside it has. -/
theorem Level.find_eq_enclosing_iff :
    Level.find around x = .enclosing d ↔ ∃ inner l outer, around = inner ++ l :: outer ∧
      inner.length = d ∧ x ∈ l.names ∧ ∀ l' ∈ inner, x ∉ l'.names := by
  have hsome : Level.find around x = .enclosing d ↔
      around.findIdx? (fun l => decide (x ∈ l.names)) = some d := by
    rw [Level.find]
    cases around.findIdx? (fun l => decide (x ∈ l.names)) <;> simp
  rw [hsome]
  constructor
  · intro hfound
    obtain ⟨hd, hmem, hbefore⟩ := List.findIdx?_eq_some_iff_getElem.mp hfound
    refine ⟨around.take d, around[d], around.drop (d + 1), ?_,
      List.length_take_of_le (Nat.le_of_lt hd), of_decide_eq_true hmem, fun l hl => ?_⟩
    · rw [← List.drop_eq_getElem_cons hd, List.take_append_drop]
    · obtain ⟨i, hi, rfl⟩ := List.mem_iff_getElem.mp hl
      rw [List.getElem_take]
      rw [List.length_take] at hi
      simpa using hbefore i (by omega)
  · rintro ⟨inner, l, outer, rfl, rfl, hmem, hinner⟩
    have hnone : inner.findIdx? (fun l => decide (x ∈ l.names)) = none := by
      simpa [List.findIdx?_eq_none_iff] using hinner
    rw [List.findIdx?_append, hnone, List.findIdx?_cons]
    simp [hmem]

end Find

/-- **Scope analysis computes lexical binding.** A program that passes it differs in its bindings
only, and at every place no reference is left unresolved. A reference is bound at top level exactly
if no scope around it has declared its name up to there. It is bound `d` scopes outward exactly if
the scope with `d` scopes inside it has declared the name, and these `d` scopes have not. -/
theorem resolve_binds_lexically (ss ss' : List Stmt) (h : resolve ss = (ss', none)) :
    Stmt.allUnbound ss' = Stmt.allUnbound ss ∧
      ∀ p ∈ Outline.allPlaces [] (Stmt.allOutline ss'),
        ∀ x b, p.part.reference? = some (x, b) →
          b ≠ .unresolved ∧
          (b = .toplevel ↔ ∀ l ∈ p.around, x ∉ l.names) ∧
          ∀ d, b = .enclosing d ↔ ∃ inner l outer, p.around = inner ++ l :: outer ∧
            inner.length = d ∧ x ∈ l.names ∧ ∀ l' ∈ inner, x ∉ l'.names := by
  obtain ⟨hunbound, hbinds⟩ := (resolve_follows ss).2 (congrArg Prod.snd h)
  rw [congrArg Prod.fst h] at hunbound hbinds
  refine ⟨hunbound, fun p hp x b href => ?_⟩
  obtain rfl := hbinds.bound p hp x b href
  exact ⟨Level.find_ne_unresolved _ _, Level.find_eq_toplevel_iff,
    fun _ => Level.find_eq_enclosing_iff⟩

/-- A parameter that is read in the body and hidden by a variable of an inner block, whose
initialiser reads a variable of the body. -/
def hiddenParameter (parameter outer hidden unknown : Binding) : List Stmt :=
  [.function 1 "f" ["a"]
    [.declare 2 "b" (some (.var 2 "a" parameter)),
      .block 3
        [.declare 4 "a" (some (.var 4 "b" outer)),
          .expression 5 (.assign 5 "a" hidden (.var 5 "g" unknown))]]]

theorem resolve_binds_lexically_hiddenParameter :
    resolve (hiddenParameter .unresolved .unresolved .unresolved .unresolved) =
        (hiddenParameter (.enclosing 0) (.enclosing 1) (.enclosing 0) .toplevel, none) ∧
      ∀ p ∈ Outline.allPlaces [] (Stmt.allOutline
          (hiddenParameter (.enclosing 0) (.enclosing 1) (.enclosing 0) .toplevel)),
        ∀ x b, p.part.reference? = some (x, b) →
          b ≠ .unresolved ∧
          (b = .toplevel ↔ ∀ l ∈ p.around, x ∉ l.names) ∧
          ∀ d, b = .enclosing d ↔ ∃ inner l outer, p.around = inner ++ l :: outer ∧
            inner.length = d ∧ x ∈ l.names ∧ ∀ l' ∈ inner, x ∉ l'.names :=
  have h : resolve (hiddenParameter .unresolved .unresolved .unresolved .unresolved) =
      (hiddenParameter (.enclosing 0) (.enclosing 1) (.enclosing 0) .toplevel, none) := rfl
  ⟨h, (resolve_binds_lexically _ _ h).2⟩

end Scriptlet
