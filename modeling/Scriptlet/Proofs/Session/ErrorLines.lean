import Scriptlet.Proofs.Grammar.ErrorOrder
import Scriptlet.Proofs.Session.Joining
import Scriptlet.Proofs.Token.Layout

/-!
# Errors point into the text

The lines of a text are numbered from one on. All tokens are on lines of the text, and from there
the lines of the trees and of all errors come. That a stage brings in no line of its own is seen
by a move of lines that leaves those of the text where they are: since such a move changes neither
the tokens nor the tree, it changes no error, so that every error is on a line of the text.

* `Line.within`: the move that brings all lines into a text and leaves those of the text alone.
* `LaidOut.lined`: the tokens of a text are on ascending lines of it.
* `relined_of_tree`: the tree of a text has lines of the text only.
* `errors_of_program`, `error_of_topLevelFrom`: the errors of a text that never runs, and the error
  that ends a run.
* `run_errors_in_order`: **errors are on lines of the text, in ascending order**.
-/

namespace Scriptlet

/-! ## Lines of a text -/

/-- The line next to `line` among those from the first one to `last`. -/
def Line.within (last line : Nat) : Nat := max 1 (min line last)

theorem Line.within_eq_iff {last line : Nat} (h : 1 ≤ last) :
    Line.within last line = line ↔ 1 ≤ line ∧ line ≤ last := by
  unfold Line.within
  omega

/-- The number of the last line of a text. -/
def lastLine (source : String) : Nat := 1 + source.toList.count '\n'

theorem one_le_lastLine (source : String) : 1 ≤ lastLine source := Nat.le_add_right 1 _

/-! ## Tokens -/

/-- **Tokens are on ascending lines of their text.** -/
theorem LaidOut.lined {line : Nat} {cs : List Char} {ts : List Token} (h : LaidOut line cs ts) :
    Grammar.Lined line ts ∧ ∀ t ∈ ts, t.line ≤ line + cs.count '\n' := by
  induction h with
  | @last line gap _ =>
    exact ⟨⟨Nat.le_add_right line _, .inl ⟨rfl, rfl⟩⟩, by simp [Token.endOfInput]⟩
  | @token line gap rest t ts kind _ starts _ ih =>
    obtain ⟨hlined, hlast⟩ := ih
    refine ⟨⟨by omega, .inr (hlined.mono (Nat.le_add_right _ _))⟩, ?_⟩
    simp only [List.count_append]
    refine List.forall_mem_cons.mpr ⟨by omega, fun t' ht' => ?_⟩
    have hle := hlast t' ht'
    omega

theorem line_of_scanFrom {line : Nat} {cs : List Char} {e : ScanError}
    (h : scanFrom line cs = .error e) : line ≤ e.line ∧ e.line ≤ line + cs.count '\n' := by
  fun_induction scanFrom line cs with
  | case1 => cases h
  | case2 line c cs =>
    cases h
    have hline : (scanError c line).line = line := by
      unfold scanError
      split_ifs <;> rfl
    omega
  | case3 line c cs kind n hlex lexeme e' hmore ih =>
    cases h
    have hcount : (c :: cs).count '\n' =
        (c :: cs.take n).count '\n' + (cs.drop n).count '\n' := by
      rw [← List.count_append, List.cons_append, List.take_append_drop]
    have hbounds := ih hmore
    rw [linesPassed_eq hlex] at hbounds
    omega
  | case4 | case5 => cases h

/-! ## Trees -/

section Trees

variable {source : String} {ss : List Stmt}

/-- **The tree of a text has lines of the text only.** -/
theorem relined_of_tree (h : tree source = .ok ss) :
    Stmt.allRelined (Line.within (lastLine source)) ss = ss := by
  obtain ⟨us, last, hscan, hwritten, hwell, hdepth⟩ := tree_eq_ok_iff_written.mp h
  obtain ⟨hlined, hlast⟩ := (laidOut_scanFrom hscan).lined
  have hkept : us.map (Token.relined (Line.within (lastLine source))) = us := by
    refine (List.map_congr_left fun t ht => ?_).trans (List.map_id us)
    have ht' := List.mem_append_left [Token.endOfInput last] ht
    have hline := (Line.within_eq_iff (one_le_lastLine source)).mpr
      ⟨hlined.forall_mem t ht', hlast t ht'⟩
    exact congrArg (fun l => { t with line := l }) hline
  -- the tree on the moved lines is written by the same tokens, and these write one tree
  have hmoved := hwritten.relined (Line.within (lastLine source))
  rw [hkept] at hmoved
  obtain ⟨hwell', hdepth'⟩ := Stmt.limits_relined (Line.within (lastLine source)) ss
  have hsame := tree_eq_ok_iff_written.mpr
    ⟨us, last, hscan, hmoved, hwell'.mpr hwell, hdepth'.trans_le hdepth⟩
  exact Except.ok.inj (hsame.symm.trans h)

theorem relined_of_resolve {f : Nat → Nat} (h : Stmt.allRelined f ss = ss) :
    Stmt.allRelined f (resolve ss).1 = (resolve ss).1 ∧
      (resolve ss).2.map (ScopeError.relined f) = (resolve ss).2 := by
  have hmoved := resolve_relined f ss
  rw [h] at hmoved
  exact ⟨(congrArg Prod.fst hmoved).symm, (congrArg Prod.snd hmoved).symm⟩

theorem ScopeError.line_relined (f : Nat → Nat) (e : ScopeError) :
    (e.relined f).line = f e.line := by
  cases e <;> rfl

/-- **The errors of a text that never runs.** -/
theorem errors_of_program {es : List Error} (h : program source = .error es) :
    (∀ e ∈ es, 1 ≤ e.line ∧ e.line ≤ lastLine source) ∧ es.Pairwise (·.line ≤ ·.line) := by
  unfold program at h
  split at h
  · rename_i es' htree
    cases h
    unfold tree at htree
    split at htree
    · rename_i e hscan
      cases htree
      exact ⟨List.forall_mem_singleton.mpr (line_of_scanFrom hscan), List.pairwise_singleton _ _⟩
    · rename_i ts hscan
      split at htree <;> cases htree
      rename_i es hparse
      obtain ⟨hlined, hlast⟩ := (laidOut_scanFrom hscan).lined
      obtain ⟨t, ht, hascending⟩ := Grammar.ascending_parse hlined hparse
      have hall := hascending.upTo (hlast t ht)
      exact ⟨List.forall_mem_map.mpr hall.forall_mem, List.pairwise_map.mpr hall.pairwise⟩
  · rename_i ss htree
    split at h <;> cases h
    rename_i e hresolve
    have hmoved := (relined_of_resolve (relined_of_tree htree)).2
    rw [hresolve] at hmoved
    have hline := congrArg ScopeError.line (Option.some.inj hmoved)
    rw [ScopeError.line_relined, Line.within_eq_iff (one_le_lastLine source)] at hline
    exact ⟨List.forall_mem_singleton.mpr hline, List.pairwise_singleton _ _⟩

end Trees

/-! ## Runs -/

theorem State.start_relined (f : Nat → Nat) : State.start.relined f "" = .start := by
  have hempty : Arena.empty.mapBody (Stmt.allRelined f) = .empty := by
    simp [Arena.mapBody, Arena.empty, Frame.mapBody, Bindings.mapBody]
  have harena : Arena.withBuiltins.mapBody (Stmt.allRelined f) = .withBuiltins := by
    simp only [Arena.withBuiltins, Builtin.all, List.foldl, Arena.define_mapBody, hempty,
      Value.mapBody]
  exact congrArg (State.mk · 0 "" 0 0) harena

/-- **The error that ends a run** is on a line that the statements have. -/
theorem error_of_topLevelFrom {clock : Nat → Number} {fuel last : Nat} {ss : List Stmt}
    {ending : Ending} (hlast : 1 ≤ last) (hss : Stmt.allRelined (Line.within last) ss = ss)
    (h : topLevelFrom (.keeping clock) fuel .null ss .start = some ending) :
    ∀ e ∈ ending.error?, 1 ≤ e.line ∧ e.line ≤ last := by
  have hmoved := topLevelFrom_relined clock fuel (Line.within last) "" .null ss .start
  rw [hss, State.start_relined, h] at hmoved
  have hsame : ending.error? = ending.error?.map (EvalError.relined (Line.within last)) :=
    congrArg Ending.error? (Option.some.inj (h.symm.trans hmoved))
  intro e he
  rw [Option.mem_def.mp he] at hsame
  have hline := congrArg EvalError.line (Option.some.inj hsame)
  exact (Line.within_eq_iff hlast).mp hline.symm

/-- **Errors are on lines of the text, in ascending order.** Whatever stage reports them, the errors
of a unit on a fresh interpreter are on lines from the first one to the last one of the text, and
each is on the line of the one before it or further down. -/
theorem run_errors_in_order (clock : Nat → Number) (fuel : Nat) (source : String)
    (report : Report) (σ : State)
    (h : run (.recycling clock) fuel source .start = some (report, σ)) :
    (∀ e ∈ report.errors, 1 ≤ e.line ∧ e.line ≤ 1 + source.toList.count '\n') ∧
      report.errors.Pairwise (·.line ≤ ·.line) := by
  have halike := Paired.start.input clock fuel (.source source)
  change ReportsAlike (run _ _ source _) (run _ _ source _) at halike
  rw [h] at halike
  -- where frames are kept the report is the same, and there lines can be moved
  generalize hkept : run (.keeping clock) fuel source .start = kept at halike
  obtain ⟨-, -⟩ := halike
  cases hprogram : program source with
  | error es =>
    rw [run, hprogram] at hkept
    cases hkept
    exact errors_of_program hprogram
  | ok ss' =>
    obtain ⟨ss, htree, hresolve⟩ := program_eq_ok.mp hprogram
    rw [run, hprogram] at hkept
    obtain ⟨ending, hending, heq⟩ := Option.map_eq_some_iff.mp hkept
    cases heq
    have hlines := (relined_of_resolve (relined_of_tree htree)).1
    rw [hresolve] at hlines
    have hbounds := error_of_topLevelFrom (one_le_lastLine source) hlines hending
    cases herror : ending.error? with
    | none => exact ⟨List.forall_mem_nil _, .nil⟩
    | some e =>
      exact ⟨List.forall_mem_singleton.mpr (hbounds e herror), List.pairwise_singleton _ _⟩

/-- A block with a semicolon on each of its lines, which is never closed. -/
def openBlock : List Token :=
  [⟨.leftBrace, "\x7b", none, 1⟩, ⟨.semicolon, ";", none, 2⟩, ⟨.semicolon, ";", none, 3⟩,
    .endOfInput 3]

theorem recovering_semicolon (room line : Nat) (rest : List Token) :
    Grammar.recovering (Grammar.declaration (room + 2)).toParser
        (⟨.semicolon, ";", none, line⟩ :: rest) =
      ⟨none, [.unexpectedToken .expression ";" line], rest⟩ :=
  rfl

/-- The errors inside a block come before the error that it is not closed. -/
theorem recovering_openBlock :
    Grammar.recovering (Grammar.declaration maxNesting).toParser openBlock =
      ⟨none, [.unexpectedToken .expression ";" 2, .unexpectedToken .expression ";" 3,
        .unexpectedEnd .blockEnd 3], [.endOfInput 3]⟩ := by
  have hlist : (Grammar.statementList (Grammar.declaration 63)).run openBlock.tail =
      ⟨.ok [], [.unexpectedToken .expression ";" 2, .unexpectedToken .expression ";" 3],
        [.endOfInput 3]⟩ := by
    simp [Grammar.statementList, openBlock, Grammar.statements, recovering_semicolon,
      Grammar.endsStatements, Token.endOfInput]
  have hrun : (Grammar.declaration maxNesting).toParser.run openBlock =
      (((Grammar.statementList (Grammar.declaration 63)).run openBlock.tail).andThen fun body => do
        let _ ← Parser.expect .rightBrace .blockEnd
        return body).andThen fun body => pure (Stmt.block 1 body) := rfl
  rw [hlist] at hrun
  simp only [Grammar.recovering, hrun]
  rfl

theorem run_errors_in_order_openBlock :
    let report : Report := ⟨none, [.parse (.unexpectedToken .expression ";" 2),
      .parse (.unexpectedToken .expression ";" 3), .parse (.unexpectedEnd .blockEnd 3)], ""⟩
    run (.recycling fun _ => ⟨0⟩) 0 "\x7b\n;\n;" .start = some (report, .start) ∧
      (∀ e ∈ report.errors, 1 ≤ e.line ∧ e.line ≤ 1 + "\x7b\n;\n;".toList.count '\n') ∧
      report.errors.Pairwise (·.line ≤ ·.line) := by
  intro report
  have hscan : scan "\x7b\n;\n;" = .ok openBlock := by
    simp [scan, scanFrom, linesPassed, lexeme?, literal?, TokenKind.isSkipped, openBlock]
  have hstatements : Grammar.statements (Grammar.declaration maxNesting) openBlock =
      ⟨[], [.unexpectedToken .expression ";" 2, .unexpectedToken .expression ";" 3,
        .unexpectedEnd .blockEnd 3], [.endOfInput 3]⟩ := by
    rw [openBlock, Grammar.statements_cons rfl, ← openBlock, recovering_openBlock]
    simp [Grammar.statements, Grammar.endsStatements, Token.endOfInput]
  have hparse : Grammar.parse openBlock =
      .error [.unexpectedToken .expression ";" 2, .unexpectedToken .expression ";" 3,
        .unexpectedEnd .blockEnd 3] := by
    rw [Grammar.parse, Grammar.program_of_end, hstatements]
    · rfl
    · rw [hstatements]
      rintro _ ⟨⟩
      decide
  have hrun : run (.recycling fun _ => ⟨0⟩) 0 "\x7b\n;\n;" .start = some (report, .start) := by
    simp only [run, program, tree, hscan, hparse]
    rfl
  exact ⟨hrun, run_errors_in_order _ _ _ _ _ hrun⟩

end Scriptlet
