import Mathlib.Data.Int.Range
import Scriptlet.Proofs.Eval.Fuel
import Scriptlet.Proofs.Eval.Moments
import Scriptlet.Proofs.Number.Counting

/-!
# Loops over ranges are their unrolling

Each turn of a loop over a range is a block that declares the index and holds the body, and the
loop is the list of these blocks in ascending order. Both do the same to the whole state: the
frames of the turns are opened and closed at the same places, whatever the body does with them.

* `turnBlock`: the block of one turn.
* `execute_turnBlock`: **a turn is its block**, up to the fuel that the block takes for itself.
* `iterate_below`, `below_iterate`: the turns from an index on and their blocks, by induction on
  the fuel.
* `forLoop_unrolls`: **a loop ends exactly as its unrolling does**.
-/

namespace Scriptlet

open Eval

/-! ## Ascending integers -/

theorem range_cons {i stop : Int} (h : i < stop) :
    Int.range i stop = i :: Int.range (i + 1) stop := by
  have hcount : (stop - i).toNat = (stop - (i + 1)).toNat + 1 := by omega
  unfold Int.range
  rw [hcount, List.range_succ_eq_map, List.map_cons, List.map_map]
  congr 1
  · omega
  · refine List.map_congr_left fun k _ => ?_
    simp only [Function.comp_apply, Nat.succ_eq_add_one]
    omega

theorem range_nil {i stop : Int} (h : ¬ i < stop) : Int.range i stop = [] := by
  have hcount : (stop - i).toNat = 0 := by omega
  rw [Int.range, hcount, List.range_zero, List.map_nil]

theorem pairwise_range (start stop : Int) : (Int.range start stop).Pairwise (· < ·) :=
  List.pairwise_lt_range.map _ fun _ _ h => by omega

/-! ## One turn -/

/-- **The block of one turn**: it declares the index and holds the body. -/
def turnBlock (line : Nat) (name : String) (body : Stmt) (k : Int) : Stmt :=
  .block line [.declare line name (some (.literal line (.number (.ofInt k)))), body]

/-- A last statement that leaves the function leaves what is around it too. -/
theorem bind_flow (x : Eval Flow) :
    (do
      match ← x with
      | .next => value .next
      | .giveBack v => value (.giveBack v)) = x := by
  funext σ
  change x.andThen _ σ = x σ
  unfold andThen
  cases x σ with
  | done flow σ₁ => cases flow <;> rfl
  | failed e σ₁ => rfl
  | outOfFuel => rfl

section Turns

variable (host : Host) (env : Slot) (held : List Value) (line : Nat) (name : String) (body : Stmt)

/-- **A turn is its block.** The block takes three units of fuel before the body starts. -/
theorem execute_turnBlock (n : Nat) (k : Int) :
    execute host (n + 4) env held (turnBlock line name body k) =
      inFrame host env held (fun s => do
        update (State.define s name (.number (.ofInt k)))
        execute host (n + 1) s held body) := by
  rw [turnBlock, execute]
  congr 1
  funext s
  simp only [executeAll, execute, evaluate]
  funext σ
  exact congrFun (bind_flow (execute host (n + 1) s held body)) _

variable {stop : Int}

/-- **What the turns do, their blocks do.** -/
theorem iterate_below (hstop : Number.Countable stop) (n : Nat) {i : Int}
    (hi : Number.Countable i) :
    Below (iterate host n env held line name body i stop)
      (executeAll host (n + 4) env held ((Int.range i stop).map (turnBlock line name body))) := by
  induction n generalizing i with
  | zero =>
    rw [iterate_zero]
    exact stuck_below _
  | succ n ih =>
    by_cases hlt : i < stop
    · rw [iterate, if_pos hlt, Number.ofInt?_of_countable hi, range_cons hlt, List.map_cons,
        executeAll, execute_turnBlock]
      dsimp only
      refine (grows_turn host env held name _ body n).bind fun flow => ?_
      cases flow with
      | next => exact ih (hi.between hstop (by omega) (by omega))
      | giveBack v => exact .refl _
    · rw [iterate, if_neg hlt, range_nil hlt, List.map_nil, executeAll]
      exact .refl _

/-- **What the blocks do, the turns do.** -/
theorem below_iterate (hstop : Number.Countable stop) (n : Nat) {i : Int}
    (hi : Number.Countable i) :
    Below (executeAll host n env held ((Int.range i stop).map (turnBlock line name body)))
      (iterate host (n + 1) env held line name body i stop) := by
  induction n generalizing i with
  | zero =>
    rw [executeAll_zero]
    exact stuck_below _
  | succ n ih =>
    by_cases hlt : i < stop
    · rw [iterate, if_pos hlt, Number.ofInt?_of_countable hi, range_cons hlt, List.map_cons,
        executeAll]
      dsimp only
      rw [← execute_turnBlock host env held line]
      refine ((grows_execute host env held _).below (by omega)).bind fun flow => ?_
      cases flow with
      | next => exact ih (hi.between hstop (by omega) (by omega))
      | giveBack v => exact .refl _
    · rw [iterate, if_neg hlt, range_nil hlt, List.map_nil, executeAll]
      exact .refl _

theorem execute_forLoop {iterable : Expr} {σ σ₁ : State} {start stop : Int} {fuel n : Nat}
    (hiterable : evaluate host fuel env held iterable σ = .done (.range start stop) σ₁)
    (hn : fuel ≤ n) :
    execute host (n + 1) env held (.forLoop line name iterable body) σ =
      iterate host n env held line name body start stop σ₁ := by
  have hended : evaluate host fuel env held iterable σ ≠ .outOfFuel := by
    rw [hiterable]
    exact nofun
  have hrange := ((grows_evaluate host env held iterable).below hn σ hended).trans hiterable
  rw [execute]
  exact bind_of_done hrange

end Turns

/-! ## Loops -/

/-- **A loop over a range is its unrolling.** Where the iterable gives a range with countable
bounds, the loop ends in the same way and in the same state as the blocks of its turns, executed
after the iterable in the same environment: one for each integer of the range, in ascending order,
and each with a literal that is that integer. -/
theorem forLoop_unrolls (host : Host) (σ σ₁ : State) (env : Slot) (held : List Value) (line : Nat)
    (name : String) (iterable : Expr) (body : Stmt) (start stop : Int) (fuel : Nat)
    (hiterable : evaluate host fuel env held iterable σ = .done (.range start stop) σ₁)
    (hstart : Number.Countable start) (hstop : Number.Countable stop) :
    (∀ k, k ∈ Int.range start stop ↔ start ≤ k ∧ k < stop) ∧
      (Int.range start stop).Pairwise (· < ·) ∧
      (∀ k ∈ Int.range start stop, (Number.ofInt k).Denotes k) ∧
      ∀ o, o ≠ .outOfFuel →
        ((∃ n, execute host n env held (.forLoop line name iterable body) σ = o) ↔
          ∃ n, executeAll host n env held
            ((Int.range start stop).map (turnBlock line name body)) σ₁ = o) := by
  refine ⟨fun k => Int.mem_range_iff, pairwise_range start stop, fun k hk => ?_, fun o ho => ?_⟩
  · obtain ⟨hle, hlt⟩ := Int.mem_range_iff.mp hk
    exact Number.denotes_ofInt (hstart.between hstop hle hlt.le)
  constructor
  · rintro ⟨n, hn⟩
    have hloop := (grows_execute host env held (.forLoop line name iterable body)).below
      (show n ≤ max n fuel + 1 by omega) σ (hn ▸ ho)
    rw [execute_forLoop host env held line name body hiterable (le_max_right n fuel), hn] at hloop
    refine ⟨max n fuel + 4, ?_⟩
    rw [iterate_below host env held line name body hstop _ hstart σ₁ (hloop ▸ ho), hloop]
  · rintro ⟨n, hn⟩
    have hturns := below_iterate host env held line name body hstop n hstart σ₁ (hn ▸ ho)
    have hmore := (grows_iterate host env held line name body start stop).below
      (show n + 1 ≤ max (n + 1) fuel by omega) σ₁ (by rw [hturns, hn]; exact ho)
    refine ⟨max (n + 1) fuel + 1, ?_⟩
    rw [execute_forLoop host env held line name body hiterable (le_max_right _ _), hmore, hturns,
      hn]

/-- The body keeps the index in a function and then assigns to it. -/
theorem forLoop_unrolls_captured :
    let host : Host := ⟨fun _ => .zero, true⟩
    let iterable : Expr := .call 1 (.var 1 "range" .toplevel)
      [.literal 1 (.number (.ofInt (-1))), .literal 1 (.number (.ofInt 2))]
    let body : Stmt := .block 1 [
      .function 1 "f" [] [.giveBack 1 (some (.var 1 "k" (.enclosing 2)))],
      .expression 1 (.assign 1 "k" (.enclosing 1) (.literal 1 .null))]
    evaluate host 4 Arena.globals [] iterable State.start = .done (.range (-1) 2) State.start ∧
      ∀ o, o ≠ .outOfFuel →
        ((∃ n, execute host n Arena.globals [] (.forLoop 1 "k" iterable body) State.start = o) ↔
          ∃ n, executeAll host n Arena.globals []
            (([-1, 0, 1] : List Int).map (turnBlock 1 "k" body)) State.start = o) := by
  have hiterable : evaluate ⟨fun _ => .zero, true⟩ 4 Arena.globals [] (.call 1
      (.var 1 "range" .toplevel) [.literal 1 (.number (.ofInt (-1))),
        .literal 1 (.number (.ofInt 2))]) State.start = .done (.range (-1) 2) State.start := by
    have hcallee : State.start.arena.get? Arena.globals "range" = some (.builtin .range) := rfl
    have hrange : makeRange [Value.number (.ofInt (-1)), Value.number (.ofInt 2)] =
      .ok (.range (-1) 2) := rfl
    simp [evaluate, evaluateAll, call, readVariable, hcallee, hrange, bind, Eval.andThen,
      Eval.value, Eval.ofExcept, Arity.check, Arity.accepts, Builtin.arity, Builtin.run,
      Value.ofLiteral]
  intro host iterable body
  obtain ⟨-, -, -, hloop⟩ := forLoop_unrolls host State.start State.start Arena.globals [] 1 "k"
    iterable body (-1) 2 4 hiterable (by decide) (by decide)
  exact ⟨hiterable, hloop⟩

end Scriptlet
