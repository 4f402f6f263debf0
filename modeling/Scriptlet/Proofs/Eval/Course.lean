import Scriptlet.Proofs.Eval.Failures
import Scriptlet.Proofs.Eval.Running

/-!
# The course of a moment

Between its start and its end a moment does some things itself, such as to bind a name, and starts
other moments. What it starts in a frame that it opens is enclosed by the opening and the release
of that frame, whichever way it ends.

* `Moment.end?`: the state in which a moment ends, with a value or with an error.
* `Moment.Opens`, `Moment.Inside`: the frames that moments open, and what they start in them.
* `Moment.Course`: **the states between the start of a moment and its end**.
* `Moment.course_of_end?`: a moment ends in one of them.
* `Moment.depth_of_end?`: **a moment leaves as many calls open as it found**.
* `Moment.depth_of_starts`: no moment starts with more open calls than are allowed.
-/

namespace Scriptlet

open Relation (ReflTransGen)

/-! ## Ends -/

/-- The state in which a computation ends. -/
def Outcome.state? {α : Type} : Outcome α → Option State
  | .done _ σ | .failed _ σ => some σ
  | .outOfFuel => none

theorem Outcome.state?_of_done {α : Type} {o : Outcome α} {a : α} {σ : State}
    (h : o = .done a σ) : o.state? = some σ := h ▸ rfl

theorem Outcome.state?_of_failed {α : Type} {o : Outcome α} {e : EvalError} {σ : State}
    (h : o = .failed e σ) : o.state? = some σ := h ▸ rfl

/-- **The state in which a moment ends**, with a value or with an error. -/
def Moment.end? (host : Host) : Moment → Option State
  | ⟨n, .evaluate env held e, σ⟩ => (Scriptlet.evaluate host n env held e σ).state?
  | ⟨n, .evaluateAll env held es, σ⟩ => (Scriptlet.evaluateAll host n env held es σ).state?
  | ⟨n, .call held line callee args, σ⟩ => (Scriptlet.call host n held line callee args σ).state?
  | ⟨n, .execute env held s, σ⟩ => (Scriptlet.execute host n env held s σ).state?
  | ⟨n, .executeAll env held ss, σ⟩ => (Scriptlet.executeAll host n env held ss σ).state?
  | ⟨n, .iterate env held line name body i stop, σ⟩ =>
    (Scriptlet.iterate host n env held line name body i stop σ).state?

namespace Eval

variable {α β : Type} {x : Eval α} {f : α → Eval β} {σ σ' : State}

theorem state?_bind (h : ((x >>= f) σ).state? = some σ') :
    (x σ).state? = some σ' ∨ ∃ a σ₁, x σ = .done a σ₁ ∧ (f a σ₁).state? = some σ' := by
  change (x.andThen f σ).state? = _ at h
  unfold andThen at h
  cases hx : x σ with
  | done a σ₁ => exact .inr ⟨a, σ₁, rfl, by rwa [hx] at h⟩
  | failed e σ₁ => exact .inl (by rwa [hx] at h)
  | outOfFuel => rw [hx] at h; cases h

theorem state?_closing {g : State → State} (h : (closing x g σ).state? = some σ') :
    ∃ σ₁, (x σ).state? = some σ₁ ∧ σ' = g σ₁ := by
  unfold closing at h
  cases hx : x σ with
  | outOfFuel => rw [hx] at h; cases h
  | _ => rw [hx] at h; cases h; exact ⟨_, rfl, rfl⟩

theorem state?_inFrame {host : Host} {env : Slot} {held : List Value} {body : Slot → Eval α}
    (h : (inFrame host env held body σ).state? = some σ') :
    ∃ s σ₁ σ₂, σ.push host env held = (s, σ₁) ∧ (body s σ₁).state? = some σ₂ ∧
      σ' = State.release host s σ₂ := by
  obtain ⟨σ₂, hbody, hσ'⟩ := state?_closing h
  exact ⟨_, _, σ₂, rfl, hbody, hσ'⟩

@[simp] theorem state?_ofExcept (line : Nat) (r : Except EvalFault α) (σ : State) :
    (ofExcept line r σ).state? = some σ := by
  cases r <;> rfl

end Eval

/-! ## What a moment does itself -/

/-- **Nothing but bindings changes in the frames**, and the open calls are the same. -/
structure State.Touches (σ σ' : State) : Prop where
  depth : σ'.depth = σ.depth
  frame (s : Slot) : ∃ b, σ'.arena.frame s = { σ.arena.frame s with bindings := b }

namespace State.Touches

variable {σ σ' σ'' : State}

theorem refl (σ : State) : σ.Touches σ := ⟨rfl, fun _ => ⟨_, rfl⟩⟩

theorem trans (h : σ.Touches σ') (h' : σ'.Touches σ'') : σ.Touches σ'' where
  depth := h'.depth.trans h.depth
  frame s := by
    obtain ⟨b, hb⟩ := h.frame s
    obtain ⟨b', hb'⟩ := h'.frame s
    exact ⟨b', by rw [hb', hb]⟩

theorem define (σ : State) (s : Slot) (x : String) (v : Value) :
    σ.Touches (σ.define s x v) where
  depth := rfl
  frame t := by
    simp only [State.define, Arena.define, Arena.frame_modify]
    split_ifs with h
    · obtain ⟨rfl, -⟩ := h
      exact ⟨_, rfl⟩
    · exact ⟨_, rfl⟩

theorem bindAll (s : Slot) (names : List String) (vs : List Value) (σ : State) :
    ∃ σ', Scriptlet.bindAll s names vs σ = .done () σ' ∧ σ.Touches σ' := by
  induction names generalizing vs σ with
  | nil => exact ⟨σ, rfl, refl σ⟩
  | cons x names ih =>
    cases vs with
    | nil => exact ⟨σ, rfl, refl σ⟩
    | cons v vs =>
      obtain ⟨σ', hbound, htouches⟩ := ih vs (σ.define s x v)
      exact ⟨σ', hbound, (define σ s x v).trans htouches⟩

theorem live (h : σ.Touches σ') (s : Slot) :
    (σ'.arena.frame s).live = (σ.arena.frame s).live := by
  obtain ⟨b, hb⟩ := h.frame s
  rw [hb]

theorem captured (h : σ.Touches σ') (s : Slot) :
    (σ'.arena.frame s).captured = (σ.arena.frame s).captured := by
  obtain ⟨b, hb⟩ := h.frame s
  rw [hb]

end State.Touches

theorem Builtin.touches_of_run {host : Host} {line : Nat} {f : Builtin} {args : List Value}
    {σ σ' : State} (h : (f.run host line args σ).state? = some σ') : σ.Touches σ' := by
  cases f with
  | clock =>
    simp only [Builtin.run] at h
    obtain h | ⟨_, σ₁, hcheck, h⟩ := Eval.state?_bind h
    · rw [Eval.state?_ofExcept] at h
      cases h
      exact .refl σ
    · obtain ⟨-, rfl⟩ := Eval.ofExcept_eq_done.mp hcheck
      cases h
      exact ⟨rfl, fun _ => ⟨_, rfl⟩⟩
  | range =>
    rw [Builtin.run, Eval.state?_ofExcept] at h
    cases h
    exact .refl σ
  | print =>
    rcases args with _ | ⟨v, _ | ⟨w, rest⟩⟩
    · cases h
      exact .refl σ
    · cases h
      exact ⟨rfl, fun _ => ⟨_, rfl⟩⟩
    · cases h
      exact .refl σ

theorem state?_readVariable (env : Slot) (line : Nat) (x : String) (b : Binding) (σ : State) :
    (readVariable env line x b σ).state? = some σ := by
  simp only [readVariable]
  cases b <;> split <;> rfl

theorem touches_of_writeVariable {env : Slot} {line : Nat} {x : String} {b : Binding} {v : Value}
    {σ σ' : State} (h : (writeVariable env line x b v σ).state? = some σ') : σ.Touches σ' := by
  rw [writeVariable_eq] at h
  split at h <;> cases h
  · exact .define σ _ x v
  · exact .refl σ

/-! ## Frames -/

/-- **The moments that open a frame**, the environment inside which they open it, and the values
that are held meanwhile. -/
inductive Moment.Opens : Moment → Slot → List Value → Prop
  | block {n env held line body σ} : Opens ⟨n + 1, .execute env held (.block line body), σ⟩ env held
  | call {n held line args σ} {f : Closure} (enters : f.Enters args σ) :
    Opens ⟨n + 1, .call held line (.function f) args, σ⟩ f.env held
  | turn {n env held line name body i stop x σ} (below : i < stop)
      (index : Number.ofInt? i = some x) :
    Opens ⟨n + 1, .iterate env held line name body i stop, σ⟩ env held

/-- **A moment starts another in a frame that it opens**, as so many more open calls. -/
inductive Moment.Inside (host : Host) (m m' : Moment) (s : Slot) (calls : Nat) : Prop
  | intro {env held σ₁ σ₂} (starts : m.Starts host m') (opens : m.Opens env held)
      (opened : m.state.push host env held = (s, σ₁)) (touches : σ₁.Touches σ₂)
      (state : m'.state = { σ₂ with depth := σ₂.depth + calls })
      (room : 0 < calls → m.state.depth + calls ≤ maxCallDepth)

theorem Moment.Inside.starts {host : Host} {m m' : Moment} {s : Slot} {calls : Nat}
    (h : m.Inside host m' s calls) : m.Starts host m' := by
  obtain ⟨starts⟩ := h
  exact starts

theorem Moment.Inside.room {host : Host} {m m' : Moment} {s : Slot} {calls : Nat}
    (h : m.Inside host m' s calls) : 0 < calls → m.state.depth + calls ≤ maxCallDepth := by
  obtain ⟨-, -, -, -, -, room⟩ := h
  exact room

/-- **The states between the start of a moment and its end.** -/
inductive Moment.Course (host : Host) (m : Moment) : State → Prop
  | start : Course host m m.state
  | touched {σ σ'} (h : Course host m σ) (touches : σ.Touches σ') : Course host m σ'
  | declared {n env held line x params body σ σ'}
      (declares : m = ⟨n + 1, .execute env held (.function line x params body), σ⟩)
      (done : declareFunction host env held x params body σ = .done () σ') : Course host m σ'
  | started {m' σ'} (starts : m.Starts host m') (h : Course host m m'.state)
      (ended : m'.end? host = some σ') : Course host m σ'
  | framed {m' s calls σ'} (inside : m.Inside host m' s calls)
      (ended : m'.end? host = some σ') :
    Course host m (State.release host s { σ' with depth := σ'.depth - calls })

/-- **A moment that starts another and goes on with its value** ends on its course: where the other
fails, or where it goes on to. -/
theorem Moment.Course.bind {α β : Type} {host : Host} {m m' : Moment} {x : Eval α}
    {f : α → Eval β} {σ σ' : State} (starts : m.Starts host m') (begins : m.Course host m'.state)
    (hx : m'.end? host = (x σ).state?) (h : ((x >>= f) σ).state? = some σ')
    (hrest : ∀ a σ₁, x σ = .done a σ₁ → m.Course host σ₁ → (f a σ₁).state? = some σ' →
      m.Course host σ') : m.Course host σ' := by
  obtain hfails | ⟨a, σ₁, ha, h⟩ := Eval.state?_bind h
  · exact .started starts begins (hx.trans hfails)
  · exact hrest a σ₁ ha (.started starts begins (hx.trans (Outcome.state?_of_done ha))) h

section Course

variable {host : Host} {n : Nat} {env : Slot} {held : List Value} {σ σ' : State}

theorem course_evaluate {e : Expr} (h : (evaluate host (n + 1) env held e σ).state? = some σ') :
    Moment.Course host ⟨n + 1, .evaluate env held e, σ⟩ σ' := by
  cases e with
  | literal =>
    simp only [evaluate] at h
    cases h
    exact .start
  | var =>
    rw [evaluate, state?_readVariable] at h
    cases h
    exact .start
  | assign line name b rhs =>
    simp only [evaluate] at h
    refine .bind (.part (.first rfl)) .start rfl h fun v σ₁ hv hcourse h => ?_
    obtain h | ⟨_, σ₂, hwrite, h⟩ := Eval.state?_bind h
    · exact hcourse.touched (touches_of_writeVariable h)
    · cases h
      exact hcourse.touched (touches_of_writeVariable (Outcome.state?_of_done hwrite))
  | group line inner =>
    simp only [evaluate] at h
    exact .started (.part (.first rfl)) .start h
  | unary line op operand =>
    simp only [evaluate] at h
    refine .bind (.part (.first rfl)) .start rfl h fun v σ₁ hv hcourse h => ?_
    rw [Eval.state?_ofExcept] at h
    cases h
    exact hcourse
  | binary line op left right =>
    simp only [evaluate] at h
    refine .bind (.part (.first rfl)) .start rfl h fun l σ₁ hl hcourse h => ?_
    refine .bind (.part (.right hl)) hcourse rfl h fun r σ₂ hr hcourse h => ?_
    rw [Eval.state?_ofExcept] at h
    cases h
    exact hcourse
  | logical line op left right =>
    simp only [evaluate] at h
    refine .bind (.part (.first rfl)) .start rfl h fun l σ₁ hl hcourse h => ?_
    split_ifs at h with hdecided
    · cases h
      exact hcourse
    · exact .started (.part (.undecided hl (Bool.eq_false_iff.mpr hdecided))) hcourse h
  | call line callee arguments =>
    simp only [evaluate] at h
    refine .bind (.part (.first rfl)) .start rfl h fun f σ₁ hf hcourse h => ?_
    refine .bind (.part (.arguments hf)) hcourse rfl h fun args σ₂ hargs hcourse h => ?_
    exact .started (.call hf hargs) hcourse h
  | get line name object =>
    simp only [evaluate] at h
    refine .bind (.part (.first rfl)) .start rfl h fun v σ₁ hv hcourse h => ?_
    cases h
    exact hcourse
  | set line name object rhs =>
    simp only [evaluate] at h
    refine .bind (.part (.first rfl)) .start rfl h fun v σ₁ hv hcourse h => ?_
    refine .bind (.part (.assigned hv)) hcourse rfl h fun u σ₂ hu hcourse h => ?_
    cases h
    exact hcourse

theorem course_evaluateAll {es : List Expr}
    (h : (evaluateAll host (n + 1) env held es σ).state? = some σ') :
    Moment.Course host ⟨n + 1, .evaluateAll env held es, σ⟩ σ' := by
  cases es with
  | nil =>
    simp only [evaluateAll] at h
    cases h
    exact .start
  | cons e es =>
    simp only [evaluateAll] at h
    refine .bind (.part .head) .start rfl h fun v σ₁ hv hcourse h => ?_
    refine .bind (.part (.tail hv)) hcourse rfl h fun vs σ₂ hvs hcourse h => ?_
    cases h
    exact hcourse

theorem course_call {line : Nat} {callee : Value} {args : List Value}
    (h : (call host (n + 1) held line callee args σ).state? = some σ') :
    Moment.Course host ⟨n + 1, .call held line callee args, σ⟩ σ' := by
  cases callee with
  | builtin f =>
    simp only [call] at h
    obtain h | ⟨_, σ₁, hcheck, h⟩ := Eval.state?_bind h
    · rw [Eval.state?_ofExcept] at h
      cases h
      exact .start
    · obtain ⟨-, rfl⟩ := Eval.ofExcept_eq_done.mp hcheck
      exact .touched .start (Builtin.touches_of_run h)
  | function f =>
    simp only [call] at h
    obtain h | ⟨_, σ₁, hcheck, h⟩ := Eval.state?_bind h
    · rw [Eval.state?_ofExcept] at h
      cases h
      exact .start
    obtain ⟨harity, rfl⟩ := Eval.ofExcept_eq_done.mp hcheck
    split_ifs at h with hdepth
    · cases h
      exact .start
    have henters : f.Enters args σ := ⟨Arity.eq_of_check harity, Nat.not_le.mp hdepth⟩
    obtain ⟨s, σ₁, σ₂, hopened, hrun, rfl⟩ := Eval.state?_inFrame h
    obtain ⟨σ₃, hbound, htouches⟩ := State.Touches.bindAll s f.params args σ₁
    rw [Eval.bind_of_done hbound] at hrun
    have hinside : Moment.Inside host ⟨n + 1, .call held line (.function f) args, σ⟩
        ⟨n, .executeAll s held f.body, { σ₃ with depth := σ₃.depth + 1 }⟩ s 1 :=
      .intro (.body henters hopened hbound) (.call henters) hopened htouches rfl
        fun _ => henters.depth
    obtain hrun | ⟨flow, σ₄, hflow, hrun⟩ := Eval.state?_bind hrun
    · obtain ⟨σ₄, hbody, rfl⟩ := Eval.state?_closing hrun
      exact .framed hinside hbody
    · obtain ⟨σ₅, hbody, rfl⟩ := Eval.state?_closing (Outcome.state?_of_done hflow)
      cases flow <;> cases hrun <;> exact .framed hinside hbody
  | _ =>
    simp only [call] at h
    cases h
    exact .start

theorem course_execute {s : Stmt} (h : (execute host (n + 1) env held s σ).state? = some σ') :
    Moment.Course host ⟨n + 1, .execute env held s, σ⟩ σ' := by
  cases s with
  | block line body =>
    simp only [execute] at h
    obtain ⟨s, σ₁, σ₂, hopened, hbody, rfl⟩ := Eval.state?_inFrame h
    have hinside : Moment.Inside host ⟨n + 1, .execute env held (.block line body), σ⟩
        ⟨n, .executeAll s held body, σ₁⟩ s 0 :=
      .intro (.block hopened) .block hopened (.refl σ₁) rfl fun h => absurd h (Nat.lt_irrefl 0)
    exact .framed hinside hbody
  | expression line e =>
    simp only [execute] at h
    refine .bind (.first rfl) .start rfl h fun v σ₁ hv hcourse h => ?_
    cases h
    exact hcourse
  | function line name params body =>
    simp only [execute] at h
    obtain h | ⟨_, σ₁, hdeclared, h⟩ := Eval.state?_bind h
    · cases h
      exact .declared rfl rfl
    · cases h
      exact .declared rfl hdeclared
  | ifThen line condition yes =>
    simp only [execute] at h
    refine .bind (.first rfl) .start rfl h fun c σ₁ hc hcourse h => ?_
    split_ifs at h with hholds
    · exact .started (.yes hc hholds) hcourse h
    · cases h
      exact hcourse
  | ifElse line condition yes no =>
    simp only [execute] at h
    refine .bind (.first rfl) .start rfl h fun c σ₁ hc hcourse h => ?_
    exact .started (.branch hc) hcourse h
  | giveBack line e =>
    cases e with
    | none =>
      simp only [execute] at h
      cases h
      exact .start
    | some e =>
      simp only [execute] at h
      refine .bind (.first rfl) .start rfl h fun v σ₁ hv hcourse h => ?_
      cases h
      exact hcourse
  | declare line name e =>
    cases e with
    | none =>
      simp only [execute] at h
      cases h
      exact .touched .start (.define σ env name .null)
    | some e =>
      simp only [execute] at h
      refine .bind (.first rfl) .start rfl h fun v σ₁ hv hcourse h => ?_
      cases h
      exact hcourse.touched (.define σ₁ env name v)
  | whileLoop line condition body =>
    simp only [execute] at h
    refine .bind (.first rfl) .start rfl h fun c σ₁ hc hcourse h => ?_
    split_ifs at h with hholds
    · refine .bind (.loop hc hholds) hcourse rfl h fun flow σ₂ hflow hcourse h => ?_
      cases flow with
      | next => exact .started (.again hc hholds hflow) hcourse h
      | giveBack v =>
        cases h
        exact hcourse
    · cases h
      exact hcourse
  | forLoop line name iterable body =>
    simp only [execute] at h
    refine .bind (.first rfl) .start rfl h fun v σ₁ hv hcourse h => ?_
    cases v with
    | range start stop => exact .started (.range hv) hcourse h
    | _ =>
      cases h
      exact hcourse

theorem course_executeAll {ss : List Stmt}
    (h : (executeAll host (n + 1) env held ss σ).state? = some σ') :
    Moment.Course host ⟨n + 1, .executeAll env held ss, σ⟩ σ' := by
  cases ss with
  | nil =>
    simp only [executeAll] at h
    cases h
    exact .start
  | cons s ss =>
    simp only [executeAll] at h
    refine .bind .head .start rfl h fun flow σ₁ hflow hcourse h => ?_
    cases flow with
    | next => exact .started (.tail hflow) hcourse h
    | giveBack v =>
      cases h
      exact hcourse

theorem course_turn (line : Nat) {name : String} {body : Stmt} {i stop : Int} {x : Number}
    (below : i < stop) (index : Number.ofInt? i = some x)
    (h : (Eval.inFrame host env held (fun s => do
      Eval.update (State.define s name (.number x))
      execute host n s held body) σ).state? = some σ') :
    Moment.Course host ⟨n + 1, .iterate env held line name body i stop, σ⟩ σ' := by
  obtain ⟨s, σ₁, σ₂, hopened, hbody, rfl⟩ := Eval.state?_inFrame h
  have hinside : Moment.Inside host ⟨n + 1, .iterate env held line name body i stop, σ⟩
      ⟨n, .execute s held body, σ₁.define s name (.number x)⟩ s 0 :=
    .intro (.turn below index hopened) (.turn below index) hopened
      (.define σ₁ s name (.number x)) rfl fun h => absurd h (Nat.lt_irrefl 0)
  exact .framed hinside hbody

theorem course_iterate {line : Nat} {name : String} {body : Stmt} {i stop : Int}
    (h : (iterate host (n + 1) env held line name body i stop σ).state? = some σ') :
    Moment.Course host ⟨n + 1, .iterate env held line name body i stop, σ⟩ σ' := by
  simp only [iterate] at h
  split_ifs at h with hbelow
  · cases hindex : Number.ofInt? i with
    | none =>
      rw [hindex] at h
      cases h
      exact .start
    | some x =>
      simp only [hindex] at h
      obtain h | ⟨flow, σ₁, hflow, h⟩ := Eval.state?_bind h
      · exact course_turn line hbelow hindex h
      have hcourse := course_turn line hbelow hindex (Outcome.state?_of_done hflow)
      cases flow with
      | next => exact .started (.next hbelow hindex hflow) hcourse h
      | giveBack v =>
        cases h
        exact hcourse
  · cases h
    exact .start

end Course

namespace Moment

variable {host : Host} {m m' : Moment} {σ σ' : State}

/-- **A moment ends in a state of its course.** -/
theorem course_of_end? (h : m.end? host = some σ') : m.Course host σ' := by
  obtain ⟨n, task, σ⟩ := m
  cases n with
  | zero =>
    cases task <;>
      simp only [end?, Scriptlet.evaluate, Scriptlet.evaluateAll, Scriptlet.call,
        Scriptlet.execute, Scriptlet.executeAll, Scriptlet.iterate] at h <;> cases h
  | succ n =>
    cases task with
    | evaluate => exact course_evaluate h
    | evaluateAll => exact course_evaluateAll h
    | call => exact course_call h
    | execute => exact course_execute h
    | executeAll => exact course_executeAll h
    | iterate => exact course_iterate h

/-- **What a moment starts begins on its course**, or in a frame that the moment opens. -/
theorem Starts.begins (h : m.Starts host m') :
    m.Course host m'.state ∨ ∃ s calls, m.Inside host m' s calls := by
  cases h with
  | part h =>
    left
    cases h with
    | first _ | head => exact .start
    | right ended | undecided ended _ | arguments ended | assigned ended =>
      exact .started (.part (.first rfl)) .start (Outcome.state?_of_done ended)
    | tail ended => exact .started (.part .head) .start (Outcome.state?_of_done ended)
  | call ended ended' =>
    exact .inl (.started (.part (.arguments ended))
      (.started (.part (.first rfl)) .start (Outcome.state?_of_done ended))
      (Outcome.state?_of_done ended'))
  | @body n held line args s σ σ₁ σ₂ f enters opened bound =>
    obtain ⟨σ₃, hbound, htouches⟩ := State.Touches.bindAll s f.params args σ₁
    cases bound.symm.trans hbound
    exact .inr ⟨s, 1, .intro (.body enters opened bound) (.call enters) opened htouches rfl
      fun _ => enters.depth⟩
  | first _ | head => exact .inl .start
  | block opened =>
    exact .inr ⟨_, 0, .intro (.block opened) .block opened (.refl _) rfl fun h =>
      absurd h (Nat.lt_irrefl 0)⟩
  | yes ended _ | branch ended | loop ended _ | range ended =>
    exact .inl (.started (.first rfl) .start (Outcome.state?_of_done ended))
  | again ended holds ended' =>
    exact .inl (.started (.loop ended holds)
      (.started (.first rfl) .start (Outcome.state?_of_done ended))
      (Outcome.state?_of_done ended'))
  | tail ended => exact .inl (.started .head .start (Outcome.state?_of_done ended))
  | turn below index opened =>
    exact .inr ⟨_, 0, .intro (.turn below index opened) (.turn below index) opened
      (.define _ _ _ _) rfl fun h => absurd h (Nat.lt_irrefl 0)⟩
  | next below index ended =>
    exact .inl (course_turn _ below index (Outcome.state?_of_done ended))

/-! ## Open calls -/

theorem Inside.depth {s : Slot} {calls : Nat} (h : m.Inside host m' s calls) :
    m'.state.depth = m.state.depth + calls := by
  obtain ⟨-, -, opened, touches, state, -⟩ := h
  rw [state, touches.depth]
  cases opened
  rfl

/-- One step: what a moment does itself keeps the open calls if all that it starts does. -/
theorem Course.depth (h : m.Course host σ)
    (hstarted : ∀ m' σ', m.Starts host m' → m'.end? host = some σ' →
      σ'.depth = m'.state.depth) : σ.depth = m.state.depth := by
  induction h with
  | start => rfl
  | touched _ touches ih => exact touches.depth.trans ih
  | declared declares done =>
    subst declares
    cases done
    rfl
  | started starts _ ended ih => exact (hstarted _ _ starts ended).trans ih
  | @framed m' s calls σ' inside ended =>
    have hended := hstarted m' σ' inside.starts ended
    rw [inside.depth] at hended
    have hrelease : (State.release host s { σ' with depth := σ'.depth - calls }).depth =
        σ'.depth - calls := by
      unfold State.release
      split_ifs <;> rfl
    omega

/-- **A moment leaves as many calls open as it found**, whichever way it ends. -/
theorem depth_of_end? (h : m.end? host = some σ') : σ'.depth = m.state.depth := by
  generalize hn : m.fuel = n
  induction n generalizing m σ' with
  | zero =>
    refine (course_of_end? h).depth fun m' _ starts _ => ?_
    exact absurd (starts.fuel.symm.trans hn) (Nat.succ_ne_zero _)
  | succ n ih =>
    refine (course_of_end? h).depth fun m' σ₁ starts ended => ?_
    exact ih ended (Nat.succ.inj (starts.fuel.symm.trans hn))

/-- **No more calls are open than are allowed**, at all moments that come from one where they are
not. -/
theorem depth_of_starts (h : ReflTransGen (Starts host) m m')
    (hm : m.state.depth ≤ maxCallDepth) : m'.state.depth ≤ maxCallDepth := by
  induction h with
  | refl => exact hm
  | @tail m₁ m₂ _ starts ih =>
    rcases starts.begins with hcourse | ⟨s, calls, hinside⟩
    · rw [hcourse.depth fun _ _ _ => depth_of_end?]
      exact ih
    · rw [hinside.depth]
      rcases Nat.eq_zero_or_pos calls with rfl | hcalls
      · exact ih
      · exact hinside.room hcalls

end Moment

end Scriptlet
