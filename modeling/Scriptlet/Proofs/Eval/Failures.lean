import Scriptlet.Proofs.Eval.Moments

/-!
# Where references fail

A reference to a variable that is not there fails, and the failure is passed on by everything that
was started around it, up to the report of the unit. The other way round, a report of an undefined
variable leads to a moment at which the reference to it failed.

* `Moment.Misses`: the reference that a moment makes itself fails.
* `Moment.Fails.raises`: **a failure comes from inside**, one start at a time.
* `misses_of_report`: **every undefined variable that a session reports** is a reference that failed
  at one of its moments.
-/

namespace Scriptlet

open Arena (globals)
open Relation (ReflTransGen)

/-! ## Where references fail -/

/-- The computation that a moment starts fails. -/
def Moment.Fails (host : Host) (e : EvalError) : Moment → Prop
  | ⟨n, .evaluate env held ex, σ⟩ => ∃ σ', Scriptlet.evaluate host n env held ex σ = .failed e σ'
  | ⟨n, .evaluateAll env held es, σ⟩ =>
    ∃ σ', Scriptlet.evaluateAll host n env held es σ = .failed e σ'
  | ⟨n, .call held line callee args, σ⟩ =>
    ∃ σ', Scriptlet.call host n held line callee args σ = .failed e σ'
  | ⟨n, .execute env held s, σ⟩ => ∃ σ', Scriptlet.execute host n env held s σ = .failed e σ'
  | ⟨n, .executeAll env held ss, σ⟩ =>
    ∃ σ', Scriptlet.executeAll host n env held ss σ = .failed e σ'
  | ⟨n, .iterate env held line name body i stop, σ⟩ =>
    ∃ σ', Scriptlet.iterate host n env held line name body i stop σ = .failed e σ'

/-- **The reference that a moment makes itself fails.** -/
inductive Moment.Misses (host : Host) (err : EvalError) : Moment → Prop
  | read {n env held line x b σ σ'} (absent : readVariable env line x b σ = .failed err σ') :
    Misses host err ⟨n + 1, .evaluate env held (.var line x b), σ⟩
  | write {n env held line x b rhs v σ σ' σ''}
      (ended : evaluate host n env held rhs σ = .done v σ')
      (absent : writeVariable env line x b v σ' = .failed err σ'') :
    Misses host err ⟨n + 1, .evaluate env held (.assign line x b rhs), σ⟩

/-! ### Operators refer to nothing -/

theorem UnaryOp.apply_ne_undefined (op : UnaryOp) (v : Value) (x : String) :
    op.apply v ≠ .error (.undefinedVariable x) := by
  cases op <;> cases v <;> nofun

theorem BinaryOp.apply_ne_undefined (op : BinaryOp) (l r : Value) (x : String) :
    op.apply l r ≠ .error (.undefinedVariable x) := by
  cases op <;> cases l <;> cases r <;> nofun

theorem Arity.check_ne_undefined (arity : Arity) (n : Nat) (x : String) :
    arity.check n ≠ .error (.undefinedVariable x) := by
  unfold Arity.check
  split_ifs <;> nofun

theorem rangeBound_ne_undefined (v : Value) (x : String) :
    rangeBound v ≠ .error (.undefinedVariable x) := by
  unfold rangeBound
  split
  · split <;> nofun
  · nofun

theorem makeRange_ne_undefined (args : List Value) (x : String) :
    makeRange args ≠ .error (.undefinedVariable x) := by
  match args with
  | [] => nofun
  | [stop] =>
    have hstop := rangeBound_ne_undefined stop x
    cases h : rangeBound stop <;> simp_all [makeRange, bind, Except.bind, pure, Except.pure]
  | [start, stop] =>
    have hstart := rangeBound_ne_undefined start x
    have hstop := rangeBound_ne_undefined stop x
    cases h : rangeBound start <;> cases h' : rangeBound stop <;>
      simp_all [makeRange, bind, Except.bind, pure, Except.pure]
  | _ :: _ :: _ :: _ => nofun

theorem Builtin.run_ne_undefined {host : Host} {line : Nat} {f : Builtin} {args : List Value}
    {σ σ' : State} {err : EvalError} (h : f.run host line args σ = .failed err σ') (x : String) :
    err.fault ≠ .undefinedVariable x := by
  intro hx
  cases f with
  | clock =>
    simp only [Builtin.run] at h
    obtain h | ⟨_, _, -, h⟩ := Eval.bind_eq_failed.mp h
    · exact Arity.check_ne_undefined _ _ x (hx ▸ (Eval.ofExcept_eq_failed.mp h).1)
    · cases h
  | range => exact makeRange_ne_undefined args x (hx ▸ (Eval.ofExcept_eq_failed.mp h).1)
  | print =>
    match args with
    | [] | _ :: _ :: _ =>
      cases h
      cases hx
    | [v] => cases h

/-! ### Failures come from inside -/

/-- What fails is a reference that the moment makes itself, or something that it started. -/
def Moment.Raises (host : Host) (err : EvalError) (m : Moment) : Prop :=
  m.Misses host err ∨ ∃ m', m.Starts host m' ∧ m'.Fails host err

section Raises

variable {host : Host} {n : Nat} {env : Slot} {held : List Value} {σ σ' : State} {err : EvalError}
  {x : String} (hx : err.fault = .undefinedVariable x)
include hx

theorem raises_evaluate {e : Expr} (h : evaluate host (n + 1) env held e σ = .failed err σ') :
    Moment.Raises host err ⟨n + 1, .evaluate env held e, σ⟩ := by
  cases e with
  | literal =>
    simp only [evaluate] at h
    cases h
  | var =>
    simp only [evaluate] at h
    exact .inl (.read h)
  | assign line name b rhs =>
    simp only [evaluate, Eval.bind_eq_failed] at h
    obtain h | ⟨v, σ₁, hv, h | ⟨_, _, -, h⟩⟩ := h
    · exact .inr ⟨_, .part (.first rfl), σ', h⟩
    · exact .inl (.write hv h)
    · cases h
  | group line inner =>
    simp only [evaluate] at h
    exact .inr ⟨_, .part (.first rfl), σ', h⟩
  | unary line op operand =>
    simp only [evaluate, Eval.bind_eq_failed, Eval.ofExcept_eq_failed] at h
    obtain h | ⟨v, σ₁, -, h, -⟩ := h
    · exact .inr ⟨_, .part (.first rfl), σ', h⟩
    · exact absurd (hx ▸ h) (op.apply_ne_undefined v x)
  | binary line op left right =>
    simp only [evaluate, Eval.bind_eq_failed, Eval.ofExcept_eq_failed] at h
    obtain h | ⟨l, σ₁, hl, h | ⟨r, σ₂, -, h, -⟩⟩ := h
    · exact .inr ⟨_, .part (.first rfl), σ', h⟩
    · exact .inr ⟨_, .part (.right hl), σ', h⟩
    · exact absurd (hx ▸ h) (op.apply_ne_undefined l r x)
  | logical line op left right =>
    simp only [evaluate, Eval.bind_eq_failed] at h
    obtain h | ⟨l, σ₁, hl, h⟩ := h
    · exact .inr ⟨_, .part (.first rfl), σ', h⟩
    · split_ifs at h with hdecided
      · cases h
      · exact .inr ⟨_, .part (.undecided hl (Bool.eq_false_iff.mpr hdecided)), σ', h⟩
  | call line callee arguments =>
    simp only [evaluate, Eval.bind_eq_failed] at h
    obtain h | ⟨f, σ₁, hf, h | ⟨args, σ₂, hargs, h⟩⟩ := h
    · exact .inr ⟨_, .part (.first rfl), σ', h⟩
    · exact .inr ⟨_, .part (.arguments hf), σ', h⟩
    · exact .inr ⟨_, .call hf hargs, σ', h⟩
  | get line name object =>
    simp only [evaluate, Eval.bind_eq_failed] at h
    obtain h | ⟨v, σ₁, -, h⟩ := h
    · exact .inr ⟨_, .part (.first rfl), σ', h⟩
    · cases h
      cases hx
  | set line name object rhs =>
    simp only [evaluate, Eval.bind_eq_failed] at h
    obtain h | ⟨v, σ₁, hv, h | ⟨u, σ₂, -, h⟩⟩ := h
    · exact .inr ⟨_, .part (.first rfl), σ', h⟩
    · exact .inr ⟨_, .part (.assigned hv), σ', h⟩
    · cases h
      cases hx

omit hx in
theorem raises_evaluateAll {es : List Expr}
    (h : evaluateAll host (n + 1) env held es σ = .failed err σ') :
    Moment.Raises host err ⟨n + 1, .evaluateAll env held es, σ⟩ := by
  cases es with
  | nil =>
    simp only [evaluateAll] at h
    cases h
  | cons e es =>
    simp only [evaluateAll, Eval.bind_eq_failed] at h
    obtain h | ⟨v, σ₁, hv, h | ⟨_, _, -, h⟩⟩ := h
    · exact .inr ⟨_, .part .head, σ', h⟩
    · exact .inr ⟨_, .part (.tail hv), σ', h⟩
    · cases h

omit hx in
theorem bindAll_ne_failed (s : Slot) (names : List String) (vs : List Value) (σ : State) :
    bindAll s names vs σ ≠ .failed err σ' := by
  induction names generalizing vs σ with
  | nil => nofun
  | cons name names ih =>
    cases vs with
    | nil => nofun
    | cons v vs =>
      simp only [bindAll]
      intro h
      obtain h | ⟨_, _, -, h⟩ := Eval.bind_eq_failed.mp h
      · cases h
      · exact ih _ _ h

theorem raises_call {line : Nat} {callee : Value} {args : List Value}
    (h : call host (n + 1) held line callee args σ = .failed err σ') :
    Moment.Raises host err ⟨n + 1, .call held line callee args, σ⟩ := by
  cases callee with
  | builtin f =>
    simp only [call, Eval.bind_eq_failed, Eval.ofExcept_eq_failed] at h
    obtain ⟨h, -⟩ | ⟨_, _, -, h⟩ := h
    · exact absurd (hx ▸ h) (Arity.check_ne_undefined _ _ x)
    · exact absurd hx (Builtin.run_ne_undefined h x)
  | function f =>
    simp only [call] at h
    obtain h | ⟨_, σ₁, hcheck, h⟩ := Eval.bind_eq_failed.mp h
    · exact absurd (hx ▸ (Eval.ofExcept_eq_failed.mp h).1) (Arity.check_ne_undefined _ _ x)
    obtain ⟨harity, rfl⟩ := Eval.ofExcept_eq_done.mp hcheck
    split_ifs at h with hdepth
    · cases h
      cases hx
    obtain ⟨s, σ₁, σ₂, hopened, h⟩ := Eval.inFrame_eq_failed h
    obtain h | ⟨_, σ₃, hbound, h⟩ := Eval.bind_eq_failed.mp h
    · exact absurd h (bindAll_ne_failed s _ _ σ₁)
    obtain h | ⟨flow, σ₄, -, h⟩ := Eval.bind_eq_failed.mp h
    · obtain ⟨σ₄, h⟩ := Eval.counted_eq_failed h
      exact .inr ⟨_, .body ⟨Arity.eq_of_check harity, Nat.not_le.mp hdepth⟩ hopened hbound, σ₄, h⟩
    · cases flow <;> cases h
  | _ =>
    simp only [call] at h
    cases h
    cases hx

theorem raises_execute {s : Stmt} (h : execute host (n + 1) env held s σ = .failed err σ') :
    Moment.Raises host err ⟨n + 1, .execute env held s, σ⟩ := by
  cases s with
  | block line body =>
    simp only [execute] at h
    obtain ⟨s, σ₁, σ₂, hopened, h⟩ := Eval.inFrame_eq_failed h
    exact .inr ⟨_, .block hopened, σ₂, h⟩
  | expression line e =>
    simp only [execute, Eval.bind_eq_failed] at h
    obtain h | ⟨_, _, -, h⟩ := h
    · exact .inr ⟨_, .first rfl, σ', h⟩
    · cases h
  | function line name params body =>
    simp only [execute, Eval.bind_eq_failed] at h
    obtain h | ⟨_, _, -, h⟩ := h
    · cases h
    · cases h
  | ifThen line condition yes =>
    simp only [execute, Eval.bind_eq_failed] at h
    obtain h | ⟨c, σ₁, hc, h⟩ := h
    · exact .inr ⟨_, .first rfl, σ', h⟩
    · split_ifs at h with hholds
      · exact .inr ⟨_, .yes hc hholds, σ', h⟩
      · cases h
  | ifElse line condition yes no =>
    simp only [execute, Eval.bind_eq_failed] at h
    obtain h | ⟨c, σ₁, hc, h⟩ := h
    · exact .inr ⟨_, .first rfl, σ', h⟩
    · exact .inr ⟨_, .branch hc, σ', h⟩
  | giveBack line e =>
    cases e with
    | none =>
      simp only [execute] at h
      cases h
    | some e =>
      simp only [execute, Eval.bind_eq_failed] at h
      obtain h | ⟨_, _, -, h⟩ := h
      · exact .inr ⟨_, .first rfl, σ', h⟩
      · cases h
  | declare line name e =>
    cases e with
    | none =>
      simp only [execute, Eval.bind_eq_failed] at h
      obtain h | ⟨_, _, -, h⟩ := h <;> cases h
    | some e =>
      simp only [execute, Eval.bind_eq_failed] at h
      obtain h | ⟨_, _, -, h | ⟨_, _, -, h⟩⟩ := h
      · exact .inr ⟨_, .first rfl, σ', h⟩
      · cases h
      · cases h
  | whileLoop line condition body =>
    simp only [execute, Eval.bind_eq_failed] at h
    obtain h | ⟨c, σ₁, hc, h⟩ := h
    · exact .inr ⟨_, .first rfl, σ', h⟩
    · split_ifs at h with hholds
      · obtain h | ⟨flow, σ₂, hflow, h⟩ := Eval.bind_eq_failed.mp h
        · exact .inr ⟨_, .loop hc hholds, σ', h⟩
        · cases flow with
          | next => exact .inr ⟨_, .again hc hholds hflow, σ', h⟩
          | giveBack v => cases h
      · cases h
  | forLoop line name iterable body =>
    simp only [execute, Eval.bind_eq_failed] at h
    obtain h | ⟨v, σ₁, hv, h⟩ := h
    · exact .inr ⟨_, .first rfl, σ', h⟩
    · cases v with
      | range start stop => exact .inr ⟨_, .range hv, σ', h⟩
      | _ =>
        cases h
        cases hx

omit hx in
theorem raises_executeAll {ss : List Stmt}
    (h : executeAll host (n + 1) env held ss σ = .failed err σ') :
    Moment.Raises host err ⟨n + 1, .executeAll env held ss, σ⟩ := by
  cases ss with
  | nil =>
    simp only [executeAll] at h
    cases h
  | cons s ss =>
    simp only [executeAll, Eval.bind_eq_failed] at h
    obtain h | ⟨flow, σ₁, hflow, h⟩ := h
    · exact .inr ⟨_, .head, σ', h⟩
    · cases flow with
      | next => exact .inr ⟨_, .tail hflow, σ', h⟩
      | giveBack v => cases h

theorem raises_iterate {line : Nat} {name : String} {body : Stmt} {i stop : Int}
    (h : iterate host (n + 1) env held line name body i stop σ = .failed err σ') :
    Moment.Raises host err ⟨n + 1, .iterate env held line name body i stop, σ⟩ := by
  simp only [iterate] at h
  split_ifs at h with hbelow
  · cases hindex : Number.ofInt? i with
    | none =>
      rw [hindex] at h
      cases h
      cases hx
    | some z =>
      simp only [hindex, Eval.bind_eq_failed] at h
      obtain h | ⟨flow, σ₁, hflow, h⟩ := h
      · obtain ⟨s, σ₁, σ₂, hopened, h⟩ := Eval.inFrame_eq_failed h
        obtain h | ⟨_, σ₃, hdefine, h⟩ := Eval.bind_eq_failed.mp h
        · cases h
        · cases hdefine
          exact .inr ⟨_, .turn hbelow hindex hopened, σ₂, h⟩
      · cases flow with
        | next => exact .inr ⟨_, .next hbelow hindex hflow, σ', h⟩
        | giveBack v => cases h
  · cases h

end Raises

/-- A moment that fails raises the error itself or has started a moment that fails. -/
theorem Moment.Fails.raises {host : Host} {m : Moment} {err : EvalError} (h : m.Fails host err)
    {x : String} (hx : err.fault = .undefinedVariable x) : m.Raises host err := by
  obtain ⟨n, task, σ⟩ := m
  cases n with
  | zero =>
    cases task <;> obtain ⟨σ', h⟩ := h <;>
      simp only [evaluate, evaluateAll, call, execute, executeAll, iterate] at h <;> cases h
  | succ n =>
    cases task <;> obtain ⟨σ', h⟩ := h
    case evaluate => exact raises_evaluate hx h
    case evaluateAll => exact raises_evaluateAll h
    case call => exact raises_call hx h
    case execute => exact raises_execute hx h
    case executeAll => exact raises_executeAll h
    case iterate => exact raises_iterate hx h

theorem Moment.Starts.fuel {host : Host} {m m' : Moment} (h : m.Starts host m') :
    m.fuel = m'.fuel + 1 := by
  cases h with
  | part h => cases h <;> rfl
  | _ => rfl

/-- **An undefined variable is a reference that failed** at a moment inside. -/
theorem Moment.misses_of_fails {host : Host} {m : Moment} {err : EvalError} (h : m.Fails host err)
    {x : String} (hx : err.fault = .undefinedVariable x) :
    ∃ m', ReflTransGen (Moment.Starts host) m m' ∧ m'.Misses host err := by
  generalize hn : m.fuel = n
  induction n generalizing m with
  | zero =>
    obtain hmisses | ⟨m', hstarts, -⟩ := h.raises hx
    · exact ⟨m, .refl, hmisses⟩
    · exact absurd (hstarts.fuel.symm.trans hn) (Nat.succ_ne_zero _)
  | succ n ih =>
    obtain hmisses | ⟨m', hstarts, hfails⟩ := h.raises hx
    · exact ⟨m, .refl, hmisses⟩
    · obtain ⟨m'', hpath, hmisses⟩ := ih hfails (Nat.succ.inj (hstarts.fuel.symm.trans hn))
      exact ⟨m'', .head hstarts hpath, hmisses⟩

/-! ### Reports -/

section Reports

variable {host : Host} {fuel : Nat}

theorem exists_unit_of_runAll {sources : List String} {reports : List Report} {σ σ' : State}
    (h : runAll (run host fuel) sources σ = some (reports, σ')) {r : Report} (hr : r ∈ reports) :
    ∃ earlier source later rs σ₁ σ₂, sources = earlier ++ source :: later ∧
      runAll (run host fuel) earlier σ = some (rs, σ₁) ∧
      run host fuel source σ₁ = some (r, σ₂) := by
  induction sources generalizing reports σ with
  | nil =>
    cases h
    cases hr
  | cons source sources ih =>
    simp only [runAll] at h
    cases hrun : run host fuel source σ with
    | none =>
      rw [hrun] at h
      cases h
    | some p =>
      obtain ⟨r', σ₁⟩ := p
      simp only [hrun] at h
      obtain ⟨⟨rs, σ₂⟩, hmore, heq⟩ := Option.map_eq_some_iff.mp h
      cases heq
      rcases List.mem_cons.mp hr with rfl | hr
      · exact ⟨[], source, sources, [], σ, σ₁, rfl, rfl, hrun⟩
      · obtain ⟨earlier, source', later, rs', σ₃, σ₄, rfl, hearlier, hsource⟩ := ih hmore hr
        refine ⟨source :: earlier, source', later, r' :: rs', σ₃, σ₄, rfl, ?_, hsource⟩
        simp only [runAll, hrun, hearlier, Option.map_some]

theorem exists_failed_of_topLevelFrom {ss : List Stmt} {last : Value} {σ : State} {ending : Ending}
    (h : topLevelFrom host fuel last ss σ = some ending) {err : EvalError}
    (herr : ending.error? = some err) :
    ∃ before s after last' σ₁ σ₂, ss = before ++ s :: after ∧
      topLevelFrom host fuel last before σ = some ⟨last', none, σ₁⟩ ∧
      topLevel host fuel [last'] s σ₁ = .failed err σ₂ := by
  induction ss generalizing last σ with
  | nil =>
    cases h
    cases herr
  | cons s ss ih =>
    simp only [topLevelFrom] at h
    cases hs : topLevel host fuel [last] s σ with
    | done v σ₁ =>
      simp only [hs] at h
      obtain ⟨before, s', after, last', σ₂, σ₃, rfl, hbefore, hfailed⟩ := ih h
      refine ⟨s :: before, s', after, last', σ₂, σ₃, rfl, ?_, hfailed⟩
      simp only [topLevelFrom, hs, hbefore]
    | failed e σ₁ =>
      simp only [hs, Option.some.injEq] at h
      subst h
      cases herr
      exact ⟨[], s, ss, last, σ, σ₁, rfl, rfl, hs⟩
    | outOfFuel =>
      simp only [hs] at h
      cases h

theorem fails_of_topLevel {last : Value} {s : Stmt} {σ σ' : State} {err : EvalError}
    (h : topLevel host fuel [last] s σ = .failed err σ') :
    Moment.Fails host err ⟨fuel, .topLevel last s, σ⟩ := by
  have hexecute : ((do
      let _ ← execute host fuel globals [last] s
      return .null : Eval Value) σ) = .failed err σ' →
      ∃ σ', execute host fuel globals [last] s σ = .failed err σ' := by
    intro h
    obtain h | ⟨_, _, -, h⟩ := Eval.bind_eq_failed.mp h
    · exact ⟨σ', h⟩
    · cases h
  cases s with
  | expression line e => exact ⟨σ', h⟩
  | _ => exact hexecute h

theorem eval_not_mem_of_program {source : String} {es : List Error}
    (h : program source = .error es) (err : EvalError) : .eval err ∉ es := by
  unfold program at h
  split at h
  · rename_i es' htree
    cases h
    unfold tree at htree
    split at htree
    · cases htree
      simp
    · split at htree <;> cases htree
      simp
  · split at h <;> cases h
    simp

/-- **Every undefined variable that a session reports** is a reference that failed at one of its
moments. -/
theorem misses_of_report {sources : List String} {reports : List Report} {σ : State}
    (h : runAll (run host fuel) sources .start = some (reports, σ)) {r : Report} (hr : r ∈ reports)
    {err : EvalError} (herr : .eval err ∈ r.errors) {x : String}
    (hx : err.fault = .undefinedVariable x) :
    ∃ m, Visited host fuel sources m ∧ m.Misses host err := by
  obtain ⟨earlier, source, later, rs, σ₁, σ₂, hunits, hearlier, hrun⟩ := exists_unit_of_runAll h hr
  unfold run interpretChecked at hrun
  cases hprogram : program source with
  | error es =>
    rw [hprogram] at hrun
    cases hrun
    exact absurd herr (eval_not_mem_of_program hprogram err)
  | ok ss =>
    rw [hprogram] at hrun
    obtain ⟨ending, hending, heq⟩ := Option.map_eq_some_iff.mp hrun
    cases heq
    have herror : ending.error? = some err := by simpa using herr
    obtain ⟨before, s, after, last, σ₃, σ₄, rfl, hbefore, hfailed⟩ :=
      exists_failed_of_topLevelFrom hending herror
    obtain ⟨m, hpath, hmisses⟩ := Moment.misses_of_fails (fails_of_topLevel hfailed) hx
    have hbegins := Visited.begins (.reached hunits hearlier hprogram hbefore)
    exact ⟨m, hbegins.trans hpath, hmisses⟩

end Reports

end Scriptlet
