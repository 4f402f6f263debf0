import Scriptlet.Proofs.Eval.Moments
import Scriptlet.Proofs.Eval.Relined
import Scriptlet.Proofs.Grammar.Soundness
import Scriptlet.Proofs.Scope.Joining
import Scriptlet.Proofs.Tree.RoundTrip

/-!
# Sessions and joined texts

A session whose units all run to their end does what the one text does that has all units below
each other: the tokens follow each other, and with them the statements, their bindings and their
effects. A unit with an error in its text does nothing at all.

* `program_append_newline`: the program of two texts below each other.
* `topLevelFrom_relined`: a program on other lines, behind other output.
* `topLevelFrom_of_run`, `topLevelFrom_of_runAll`: what a unit does, and what a session does, is
  done by the statements without lines where all frames are kept.
* `runAll_joined`: **a session equals its concatenation**, and units that never run can be left out.
-/

namespace Scriptlet

/-! ## Texts below each other -/

/-- **A text is parsed exactly if its tokens write the tree**, up to the end of input. -/
theorem tree_eq_ok_iff_written {source : String} {ss : List Stmt} :
    tree source = .ok ss ↔ ∃ us last, scan source = .ok (us ++ [.endOfInput last]) ∧
      Chained Stmt.Written ss us ∧ Stmt.AllWellFormed ss ∧ Stmt.bodyDepth ss ≤ maxNesting := by
  rw [tree_eq_ok]
  constructor
  · rintro ⟨ts, hscan, hparse⟩
    obtain ⟨us, last, rfl, hus⟩ := scanFrom_eq_concat hscan
    obtain ⟨used, rest, heq, hchain, hrest⟩ := Grammar.parse_eq_ok.mp hparse
    have hwritten := Grammar.chained_sentence_iff.mp hchain
    obtain rfl := used_eq_of_parse heq (fun t ht => (hus t ht).kind) rfl hwritten.1 hrest
    exact ⟨used, last, hscan, hwritten⟩
  · rintro ⟨us, last, hscan, hwritten⟩
    refine ⟨_, hscan, Grammar.parse_eq_ok.mpr ⟨us, [.endOfInput last], rfl,
      Grammar.chained_sentence_iff.mpr hwritten, ?_⟩⟩
    rintro _ ⟨⟩
    rfl

theorem program_eq_ok {source : String} {ss' : List Stmt} :
    program source = .ok ss' ↔ ∃ ss, tree source = .ok ss ∧ resolve ss = (ss', none) := by
  unfold program
  cases htree : tree source with
  | error es => simp
  | ok ss => rcases hresolve : resolve ss with ⟨ss₁, _ | e⟩ <;> simp [hresolve]

/-- **The program of two texts below each other**: the statements of the first, and then those of
the second further down. -/
theorem program_append_newline {source source' : String} {ss ts : List Stmt}
    (h : program source = .ok ss) (h' : program source' = .ok ts) :
    ∃ k, program (source ++ "\n" ++ source') = .ok (ss ++ Stmt.allRelined (· + k) ts) := by
  obtain ⟨ss₀, htree, hresolve⟩ := program_eq_ok.mp h
  obtain ⟨ts₀, htree', hresolve'⟩ := program_eq_ok.mp h'
  obtain ⟨us, k, hscan, hwritten, hwell, hdepth⟩ := tree_eq_ok_iff_written.mp htree
  obtain ⟨vs, l, hscan', hwritten', hwell', hdepth'⟩ := tree_eq_ok_iff_written.mp htree'
  obtain ⟨hwell₁, hdepth₁⟩ := Stmt.limits_relined (· + k) ts₀
  have hmoved := resolve_relined (· + k) ts₀
  rw [hresolve'] at hmoved
  refine ⟨k, program_eq_ok.mpr ⟨ss₀ ++ Stmt.allRelined (· + k) ts₀, ?_,
    resolve_append hwell hresolve hmoved⟩⟩
  refine tree_eq_ok_iff_written.mpr ⟨_, l + k, scan_append_newline hscan hscan',
    hwritten.append (hwritten'.relined (· + k)), ?_, ?_⟩
  · rw [Stmt.allWellFormed_iff, List.forall_mem_append, ← Stmt.allWellFormed_iff,
      ← Stmt.allWellFormed_iff, hwell₁]
    exact ⟨hwell, hwell'⟩
  · rw [Stmt.bodyDepth_le_iff, List.forall_mem_append, ← Stmt.bodyDepth_le_iff,
      ← Stmt.bodyDepth_le_iff, hdepth₁]
    exact ⟨hdepth, hdepth'⟩

/-- **The program of texts below each other** is that of one after another, up to lines. -/
theorem program_intercalate {sources : List String} {programs : List (List Stmt)}
    (h : List.Forall₂ (fun source ss => program source = .ok ss) sources programs)
    (hne : sources ≠ []) :
    ∃ ss, program ("\n".intercalate sources) = .ok ss ∧
      Stmt.unlined ss = Stmt.unlined programs.flatten := by
  induction h with
  | nil => exact absurd rfl hne
  | @cons source ss sources programs hfirst hmore ih =>
    cases hmore with
    | nil => exact ⟨ss, by simpa using hfirst, by simp⟩
    | @cons source' ts sources programs hsecond hmore =>
      obtain ⟨rest, hrest, hsame⟩ := ih (List.cons_ne_nil _ _)
      obtain ⟨k, hjoined⟩ := program_append_newline hfirst hrest
      refine ⟨_, by rw [String.intercalate_cons_cons]; exact hjoined, ?_⟩
      rw [List.flatten_cons, Stmt.unlined_append, Stmt.unlined_append, Stmt.unlined_relined, hsame]

/-! ## Statements at top level -/

section TopLevel

variable (clock : Nat → Number) (fuel : Nat) (f : Nat → Nat) (before : String)

theorem moved_topLevel (held held' : List Value) (s : Stmt) :
    Eval.Moved f before (Value.relined f) (topLevel (.keeping clock) fuel held s)
      (topLevel (.keeping clock) fuel held' (s.relined f)) := by
  have hexecute : Eval.Moved f before (Value.relined f)
      (do
        let _ ← execute (.keeping clock) fuel Arena.globals held s
        return .null)
      (do
        let _ ← execute (.keeping clock) fuel Arena.globals held' (s.relined f)
        return .null) :=
    ((relined f before clock fuel).execute Arena.globals held held' s).bind fun _ =>
      Eval.moved_value (Value.relined f) .null
  cases s with
  | expression line e => exact (relined f before clock fuel).evaluate Arena.globals held held' e
  | _ => exact hexecute

/-- The ending on other lines, behind other output. -/
def Ending.relined (e : Ending) : Ending :=
  ⟨e.last.relined f, e.error?.map (EvalError.relined f), e.state.relined f before⟩

/-- **A program on other lines, behind other output**, ends the same way. -/
theorem topLevelFrom_relined (last : Value) (ss : List Stmt) (σ : State) :
    topLevelFrom (.keeping clock) fuel (last.relined f) (Stmt.allRelined f ss)
        (σ.relined f before) =
      (topLevelFrom (.keeping clock) fuel last ss σ).map (Ending.relined f before) := by
  induction ss generalizing last σ with
  | nil => rfl
  | cons s ss ih =>
    simp only [topLevelFrom, Stmt.allRelined,
      moved_topLevel clock fuel f before [last] [last.relined f] s σ]
    cases topLevel (.keeping clock) fuel [last] s σ with
    | done v σ' => exact ih v σ'
    | failed e σ' => rfl
    | outOfFuel => rfl

theorem topLevelFrom_cons {host : Host} {last v : Value} {s : Stmt} {ss : List Stmt}
    {σ σ' : State} (h : topLevelFrom host fuel last (s :: ss) σ = some ⟨v, none, σ'⟩) :
    ∃ u σ₁, topLevel host fuel [last] s σ = .done u σ₁ ∧
      topLevelFrom host fuel u ss σ₁ = some ⟨v, none, σ'⟩ := by
  simp only [topLevelFrom] at h
  split at h
  · rename_i u σ₁ hfirst
    exact ⟨u, σ₁, hfirst, h⟩
  · cases h
  · cases h

theorem topLevelFrom_of_done {last v : Value} {ss : List Stmt} {σ σ' : State}
    (h : topLevelFrom (.keeping clock) fuel last ss σ = some ⟨v, none, σ'⟩) (last' : Value) :
    topLevelFrom (.keeping clock) fuel last' (Stmt.allRelined f ss) (σ.relined f before) =
      some ⟨if ss = [] then last' else v.relined f, none, σ'.relined f before⟩ := by
  cases ss with
  | nil =>
    cases h
    rfl
  | cons s ss =>
    obtain ⟨u, σ₁, hfirst, hmore⟩ := topLevelFrom_cons fuel h
    simp only [topLevelFrom, Stmt.allRelined,
      moved_topLevel clock fuel f before [last] [last'] s σ, hfirst]
    refine (topLevelFrom_relined clock fuel f before u ss σ₁).trans ?_
    rw [hmore]
    rfl

theorem topLevelFrom_append {host : Host} {last v : Value} {ss : List Stmt} {σ σ' : State}
    (h : topLevelFrom host fuel last ss σ = some ⟨v, none, σ'⟩) (ts : List Stmt) :
    topLevelFrom host fuel last (ss ++ ts) σ = topLevelFrom host fuel v ts σ' := by
  induction ss generalizing last σ with
  | nil =>
    cases h
    rfl
  | cons s ss ih =>
    obtain ⟨u, σ₁, hfirst, hmore⟩ := topLevelFrom_cons fuel h
    simp only [List.cons_append, topLevelFrom, hfirst]
    exact ih hmore

end TopLevel

/-! ## Sessions -/

section Sessions

variable {υ : Type} {step : υ → State → Option (Report × State)} {σ σ' : State}
  {rs : List Report}

theorem runAll_concat {us : List υ} {u : υ} (h : runAll step (us ++ [u]) σ = some (rs, σ')) :
    ∃ rs' r σ₁, runAll step us σ = some (rs', σ₁) ∧ step u σ₁ = some (r, σ') ∧
      rs = rs' ++ [r] := by
  induction us generalizing σ rs with
  | nil =>
    obtain ⟨r, σ₁, rs', hlast, hnone, rfl⟩ := runAll_cons h
    cases hnone
    exact ⟨[], r, σ, rfl, hlast, rfl⟩
  | cons v us ih =>
    obtain ⟨r₀, σ₀, rs₀, hfirst, hmore, rfl⟩ := runAll_cons h
    obtain ⟨rs', r, σ₁, hunits, hlast, rfl⟩ := ih hmore
    exact ⟨r₀ :: rs', r, σ₁, by simp only [runAll, hfirst, hunits, Option.map_some], hlast, rfl⟩

/-- **A unit that leaves the state as it is** can be inserted anywhere. -/
theorem runAll_insert {u : υ} {r : Report} (hu : ∀ σ, step u σ = some (r, σ)) (us vs : List υ)
    (σ : State) :
    runAll step (us ++ u :: vs) σ = (runAll step (us ++ vs) σ).map fun p =>
      (p.1.take us.length ++ r :: p.1.drop us.length, p.2) := by
  induction us generalizing σ with
  | nil => simp [runAll, hu]
  | cons v us ih =>
    simp only [List.cons_append, runAll]
    cases step v σ with
    | none => rfl
    | some p => simp [ih, Function.comp_def]

end Sessions

/-! ## Units -/

/-- A state before anything is printed. -/
def State.silent (σ : State) : State := { σ with output := "" }

theorem State.relined_silent (f : Nat → Nat) (before : String) (σ : State) :
    σ.relined f before = σ.silent.relined f (before ++ σ.output) := by
  simp [State.relined, State.silent]

theorem ne_nil_of_program {source : String} {es : List Error} (h : program source = .error es) :
    es ≠ [] := by
  have hparse : ∀ {ts es}, Grammar.parse ts = .error es → es ≠ [] := by
    intro ts es h
    unfold Grammar.parse at h
    dsimp only at h
    split_ifs at h with hempty
    cases h
    simpa using hempty
  unfold program tree at h
  split at h
  · rename_i htree
    cases h
    split at htree
    · cases htree
      exact List.cons_ne_nil _ _
    · split at htree
      · rename_i hes
        cases htree
        simpa using hparse hes
      · cases htree
  · split at h
    · cases h
      exact List.cons_ne_nil _ _
    · cases h

section Units

variable {clock : Nat → Number} {fuel : Nat} {φ : Slot → Slot} {σ σ' τ : State}

/-- **What a unit does** is done by its statements without lines, behind any output. -/
theorem topLevelFrom_of_run {source : String} {r : Report} (h : Paired φ [] σ τ)
    (hrun : run (.recycling clock) fuel source σ = some (r, σ')) (hr : r.errors = [])
    (last : Value) (before : String) :
    ∃ ss v ψ τ', program source = .ok ss ∧ Paired ψ [] σ' τ' ∧
      topLevelFrom (.keeping clock) fuel last (Stmt.unlined ss)
          (τ.silent.relined (fun _ => 0) before) =
        some ⟨v, none, τ'.silent.relined (fun _ => 0) (before ++ r.output)⟩ ∧
      (ss ≠ [] → r.result = some v.text) := by
  have halike := h.input clock fuel (.source source)
  change ReportsAlike (run _ _ source σ) (run _ _ source τ) at halike
  rw [hrun] at halike
  cases hprogram : program source with
  | error es =>
    rw [run, hprogram] at hrun
    cases hrun
    exact absurd hr (ne_nil_of_program hprogram)
  | ok ss =>
    generalize hkept : run (.keeping clock) fuel source τ = kept at halike
    rw [run, hprogram] at hkept
    cases halike with
    | @reported _ _ τ' ψ hpaired =>
      -- the unit ran alike where frames are kept, and there lines and earlier output do not matter
      obtain ⟨⟨v, error?, τ'⟩, hending, heq⟩ := Option.map_eq_some_iff.mp hkept
      cases heq
      obtain rfl : error? = none := by
        cases error? with
        | none => rfl
        | some e => cases hr
      have hdone := topLevelFrom_of_done clock fuel (fun _ => 0) before hending last
      rw [τ'.relined_silent, ← Stmt.allUnlinedWith_eq] at hdone
      refine ⟨ss, _, ψ, τ', rfl, hpaired, hdone, fun hne => ?_⟩
      rw [if_neg hne]
      exact congrArg some (v.text_mapBody _).symm

/-- **What a session does** is done by the statements of its units without lines, one after
another. -/
theorem topLevelFrom_of_runAll {sources : List String} {reports : List Report} (h : Paired φ [] σ τ)
    (hrun : runAll (run (.recycling clock) fuel) sources σ = some (reports, σ'))
    (hr : ∀ r ∈ reports, r.errors = []) (last : Value) (before : String) :
    ∃ programs v ψ τ',
      List.Forall₂ (fun source ss => program source = .ok ss) sources programs ∧
      Paired ψ [] σ' τ' ∧
      topLevelFrom (.keeping clock) fuel last (Stmt.unlined programs.flatten)
          (τ.silent.relined (fun _ => 0) before) =
        some ⟨v, none, τ'.silent.relined (fun _ => 0)
          (before ++ String.join (reports.map Report.output))⟩ := by
  induction sources generalizing φ σ τ reports last before with
  | nil =>
    cases hrun
    exact ⟨[], last, φ, τ, .nil, h, by simp [Stmt.unlined, Stmt.allUnlinedWith, topLevelFrom]⟩
  | cons source sources ih =>
    obtain ⟨r, σ₁, rs, hfirst, hmore, rfl⟩ := runAll_cons hrun
    obtain ⟨hr, hrs⟩ := List.forall_mem_cons.mp hr
    obtain ⟨ss, v, ψ, τ₁, hprogram, hpaired, hunit, -⟩ :=
      topLevelFrom_of_run h hfirst hr last before
    obtain ⟨programs, w, χ, τ', hprograms, hpaired', hunits⟩ :=
      ih hpaired hmore hrs v (before ++ r.output)
    refine ⟨ss :: programs, w, χ, τ', .cons hprogram hprograms, hpaired', ?_⟩
    rw [List.flatten_cons, Stmt.unlined_append, topLevelFrom_append fuel hunit, hunits,
      List.map_cons, String.join_cons, String.append_assoc]

theorem run_of_topLevelFrom {source out : String} {ss : List Stmt} {v : Value} {τ' : State}
    (h : Paired φ [] σ τ) (hprogram : program source = .ok ss)
    (hrun : topLevelFrom (.keeping clock) fuel .null (Stmt.unlined ss)
        (τ.silent.relined (fun _ => 0) "") =
      some ⟨v, none, τ'.silent.relined (fun _ => 0) out⟩) :
    (run (.recycling clock) fuel source σ).map Prod.fst = some ⟨some v.text, [], out⟩ := by
  -- back to the lines of the text, then to the interpreter that recycles frames
  rw [Stmt.unlined, Stmt.allUnlinedWith_eq] at hrun
  have hlined := topLevelFrom_relined clock fuel (fun _ => 0) "" .null ss τ.silent
  obtain ⟨⟨u, error?, ρ⟩, hending, heq⟩ := Option.map_eq_some_iff.mp (hlined.symm.trans hrun)
  obtain ⟨rfl, herror, hstate⟩ := Ending.mk.inj heq
  obtain rfl := Option.map_eq_none_iff.mp herror
  have hout : ρ.output = out := by
    simpa [State.relined, State.silent] using congrArg State.output hstate
  have hkept : interpret (.keeping clock) fuel ss τ = some (⟨some u.text, [], ρ.output⟩, ρ) :=
    congrArg (Option.map _) hending
  have halike := h.interpret clock fuel ss
  rw [hkept] at halike
  have htext : (u.relined fun _ => 0).text = u.text := u.text_mapBody _
  rw [run, hprogram, htext, ← hout]
  change (interpret _ _ _ _).map Prod.fst = _
  generalize interpret (.recycling clock) fuel ss σ = o at halike ⊢
  cases halike
  rfl

end Units

/-! ## Joined texts -/

/-- **All units of a session below each other.** -/
theorem run_intercalate {clock : Nat → Number} {fuel : Nat} {sources : List String}
    {source : String} {reports : List Report} {report : Report} {σ : State}
    (h : runAll (run (.recycling clock) fuel) (sources ++ [source]) .start =
      some (reports ++ [report], σ))
    (hok : ∀ r ∈ reports ++ [report], r.errors = []) (hne : program source ≠ .ok []) :
    (run (.recycling clock) fuel ("\n".intercalate (sources ++ [source])) .start).map Prod.fst =
      some ⟨report.result, [], String.join ((reports ++ [report]).map Report.output)⟩ := by
  obtain ⟨rs, r, σ₁, hunits, hunit, heq⟩ := runAll_concat h
  obtain ⟨rfl, hlast⟩ := List.append_inj' heq rfl
  obtain rfl := List.singleton_inj.mp hlast
  obtain ⟨hreports, hreport⟩ := List.forall_mem_append.mp hok
  let out := "" ++ String.join (reports.map Report.output)
  obtain ⟨programs, v, φ, τ, hprograms, hpaired, hdone⟩ :=
    topLevelFrom_of_runAll Paired.start hunits hreports .null ""
  obtain ⟨ss, w, -, τ', hprogram, -, hended, hresult⟩ :=
    topLevelFrom_of_run hpaired hunit (hreport report (List.mem_singleton_self report)) v out
  obtain ⟨joined, hjoined, hsame⟩ := program_intercalate
    (List.rel_append hprograms (.cons hprogram .nil)) (by simp)
  rw [List.flatten_append, List.flatten_singleton, Stmt.unlined_append] at hsame
  have hwhole := topLevelFrom_append fuel hdone (Stmt.unlined ss)
  rw [← hsame, hended] at hwhole
  rw [run_of_topLevelFrom Paired.start hjoined hwhole, hresult fun hnil => hne (hnil ▸ hprogram)]
  simp [out]

/-- **A session equals its concatenation.** If all units of a session run without an error and the
last one has a statement, then the text with all units below each other runs without an error too,
with the output of all units and the result of the last one. And a unit with an error in its text
can be inserted anywhere into any session: the other units have the same reports. -/
theorem runAll_joined (clock : Nat → Number) (fuel : Nat) :
    (∀ (sources : List String) (source : String) (reports : List Report) (report : Report)
        (σ : State),
      runAll (run (.recycling clock) fuel) (sources ++ [source]) .start =
          some (reports ++ [report], σ) →
        (∀ r ∈ reports ++ [report], r.errors = []) → program source ≠ .ok [] →
        (run (.recycling clock) fuel ("\n".intercalate (sources ++ [source])) .start).map Prod.fst =
          some ⟨report.result, [], String.join ((reports ++ [report]).map Report.output)⟩) ∧
      ∀ (sources : List String) (source : String) (more : List String) (es : List Error)
        (σ : State), program source = .error es →
        runAll (run (.recycling clock) fuel) (sources ++ source :: more) σ =
          (runAll (run (.recycling clock) fuel) (sources ++ more) σ).map fun p =>
            (p.1.take sources.length ++ ⟨none, es, ""⟩ :: p.1.drop sources.length, p.2) := by
  refine ⟨fun _ _ _ _ _ => run_intercalate, fun sources source more es σ hprogram => ?_⟩
  refine runAll_insert (fun σ => ?_) sources more σ
  rw [run, hprogram]
  rfl

/-- A variable that a later unit prints, and a unit that cannot be scanned in between. -/
theorem runAll_joined_print :
    ∃ σ, runAll (run (.recycling fun _ => ⟨0⟩) 3) ["var x = true;", "print(x);"] .start =
        some ([⟨some "null", [], ""⟩, ⟨some "true", [], "true\n"⟩], σ) ∧
      (run (.recycling fun _ => ⟨0⟩) 3 "var x = true;\nprint(x);" .start).map Prod.fst =
        some ⟨some "true", [], "true\n"⟩ ∧
      program "#" = .error [.scan (.unexpectedCharacter '#' 1)] ∧
      runAll (run (.recycling fun _ => ⟨0⟩) 3) ["var x = true;", "#", "print(x);"] .start =
        some ([⟨some "null", [], ""⟩, ⟨none, [.scan (.unexpectedCharacter '#' 1)], ""⟩,
          ⟨some "true", [], "true\n"⟩], σ) := by
  have hscan : scan "var x = true;" =
      .ok ([⟨.kwVar, "var", none, 1⟩, ⟨.identifier, "x", none, 1⟩, ⟨.equal, "=", none, 1⟩,
        ⟨.kwTrue, "true", some (.bool true), 1⟩, ⟨.semicolon, ";", none, 1⟩] ++
        [.endOfInput 1]) := by
    simp [scan, scanFrom, linesPassed, lexeme?, runLength, withEqual, literal?, TokenKind.ofWord,
      TokenKind.keywords, TokenKind.isSkipped, isBlank, List.lookup_cons]
  have hscan' : scan "print(x);" =
      .ok ([⟨.identifier, "print", none, 1⟩, ⟨.leftParen, "(", none, 1⟩,
        ⟨.identifier, "x", none, 1⟩, ⟨.rightParen, ")", none, 1⟩, ⟨.semicolon, ";", none, 1⟩] ++
        [.endOfInput 1]) := by
    simp [scan, scanFrom, linesPassed, lexeme?, runLength, literal?, TokenKind.ofWord,
      TokenKind.keywords, TokenKind.isSkipped, isBlank, List.lookup_cons]
  have hdeclare := Stmt.Written.declare (t := ⟨.kwVar, "var", none, 1⟩)
    (n := ⟨.identifier, "x", none, 1⟩) (m := ⟨.equal, "=", none, 1⟩)
    (q := ⟨.semicolon, ";", none, 1⟩) rfl rfl rfl
    (.literal (t := ⟨.kwTrue, "true", some (.bool true), 1⟩) rfl) rfl
  have hcall := Expr.Written.call (l := ⟨.leftParen, "(", none, 1⟩)
    (r := ⟨.rightParen, ")", none, 1⟩) (.var (t := ⟨.identifier, "print", none, 1⟩) rfl) rfl
    (.cons (.var (t := ⟨.identifier, "x", none, 1⟩) rfl) .nil) rfl
  have hprogram : program "var x = true;" =
      .ok [.declare 1 "x" (some (.literal 1 (.bool true)))] := by
    refine program_eq_ok.mpr ⟨_, tree_eq_ok_iff_written.mpr ⟨_, 1, hscan, .cons hdeclare .nil, ?_,
      by decide⟩, rfl⟩
    simp [Stmt.AllWellFormed, Stmt.WellFormed, Expr.WellFormed]
  have hprogram' : program "print(x);" =
      .ok [.expression 1 (.call 1 (.var 1 "print" .toplevel) [.var 1 "x" .toplevel])] := by
    refine program_eq_ok.mpr ⟨_, tree_eq_ok_iff_written.mpr ⟨_, 1, hscan',
      .cons (Stmt.Written.expression (q := ⟨.semicolon, ";", none, 1⟩) hcall rfl) .nil, ?_,
      by decide⟩, rfl⟩
    simp [Stmt.AllWellFormed, Stmt.WellFormed, Expr.WellFormed, Expr.AllWellFormed, Expr.level,
      maxArguments]
  let σ : State := State.start.define Arena.globals "x" (.bool true)
  have hfirst : run (.recycling fun _ => ⟨0⟩) 3 "var x = true;" .start =
      some (⟨some "null", [], ""⟩, σ) := by
    rw [run, hprogram]
    simp only [interpretChecked, interpret, topLevelFrom, topLevel, execute, evaluate]
    rfl
  have hprint : evaluate (.recycling fun _ => ⟨0⟩) 3 Arena.globals [.null]
      (.call 1 (.var 1 "print" .toplevel) [.var 1 "x" .toplevel]) σ =
        .done (.bool true) { σ with output := σ.output ++ "true" ++ "\n" } := by
    have hcallee : σ.arena.get? Arena.globals "print" = some (.builtin .print) := rfl
    have hargument : σ.arena.get? Arena.globals "x" = some (.bool true) := rfl
    simp [evaluate, evaluateAll, call, readVariable, hcallee, hargument, bind, Eval.andThen,
      Eval.value, Eval.ofExcept, Arity.check, Arity.accepts, Builtin.arity, Builtin.run,
      Eval.update, Value.text]
  have hsecond : run (.recycling fun _ => ⟨0⟩) 3 "print(x);" σ =
      some (⟨some "true", [], "true\n"⟩, { σ with output := "true\n" }) := by
    have hsilent : { σ with output := "" } = σ := rfl
    rw [run, hprogram']
    simp only [interpretChecked, interpret, topLevelFrom, topLevel, hsilent, hprint]
    rfl
  have hrun : runAll (run (.recycling fun _ => ⟨0⟩) 3) ["var x = true;", "print(x);"] .start =
      some ([⟨some "null", [], ""⟩, ⟨some "true", [], "true\n"⟩],
        { σ with output := "true\n" }) := by
    simp only [runAll, hfirst, hsecond, Option.map_some]
  have herror : program "#" = .error [.scan (.unexpectedCharacter '#' 1)] := by
    simp [program, tree, scan, scanFrom, lexeme?, scanError, isBlank]
  obtain ⟨hjoined, hinserted⟩ := runAll_joined (fun _ => ⟨0⟩) 3
  refine ⟨_, hrun, ?_, herror, ?_⟩
  · have hjoin := hjoined ["var x = true;"] "print(x);" [⟨some "null", [], ""⟩]
      ⟨some "true", [], "true\n"⟩ _ hrun (by simp) (by simp [hprogram'])
    simpa [String.intercalate_cons_cons] using hjoin
  · have hinsert := hinserted ["var x = true;"] "#" ["print(x);"] _ .start herror
    rw [List.singleton_append, List.singleton_append, hrun] at hinsert
    exact hinsert

end Scriptlet
