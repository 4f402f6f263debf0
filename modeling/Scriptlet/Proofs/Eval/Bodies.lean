import Scriptlet.Eval.Evaluate
import Scriptlet.Proofs.Arena.Frames

/-!
# States with other function bodies

Function values carry their bodies, and nothing looks into a body before its function is called.
If the bodies of all functions in a state are changed, then operators give the same results, and
arenas change and answer alike.

* `Value.mapBody`, `Arena.mapBody`: the change, by a function on bodies.
* `BinaryOp.apply_mapBody` and so on: operators do not see bodies.
* `Arena.define_mapBody`, `Arena.find?_mapBody` and so on: **arenas change and answer alike**.
-/

namespace Scriptlet

/-! ## Values -/

/-- The same function with another body. -/
def Closure.mapBody (g : List Stmt → List Stmt) (f : Closure) : Closure :=
  { f with body := g f.body }

/-- The same value, with another body if it is a function. -/
def Value.mapBody (g : List Stmt → List Stmt) : Value → Value
  | .function f => .function (f.mapBody g)
  | v => v

variable (g : List Stmt → List Stmt)

namespace Value

theorem mapBody_of_closure? {v : Value} (h : v.closure? = none) : v.mapBody g = v := by
  cases v <;> first | rfl | cases h

theorem truthy_mapBody (v : Value) : (v.mapBody g).truthy = v.truthy := by cases v <;> rfl

theorem text_mapBody (v : Value) : (v.mapBody g).text = v.text := by cases v <;> rfl

theorem equals_mapBody (v u : Value) : (v.mapBody g).equals (u.mapBody g) = v.equals u := by
  cases v <;> cases u <;> rfl

end Value

/-! ## Operators -/

theorem numberOperands_mapBody (op : BinaryOp) (l r : Value) :
    numberOperands op (l.mapBody g) (r.mapBody g) = numberOperands op l r := by
  cases l <;> cases r <;> rfl

theorem addValues_mapBody (l r : Value) :
    addValues (l.mapBody g) (r.mapBody g) = addValues l r := by
  cases l <;> cases r <;> rfl

theorem BinaryOp.apply_mapBody (op : BinaryOp) (l r : Value) :
    op.apply (l.mapBody g) (r.mapBody g) = op.apply l r := by
  cases op <;>
    simp only [apply, addValues_mapBody, arithmetic, comparison, numberOperands_mapBody,
      compareEqual, Value.equals_mapBody]

theorem UnaryOp.apply_mapBody (op : UnaryOp) (v : Value) :
    op.apply (v.mapBody g) = op.apply v := by
  cases op <;> cases v <;> rfl

theorem LogicalOp.decidedBy_mapBody (op : LogicalOp) (v : Value) :
    op.decidedBy (v.mapBody g) = op.decidedBy v := by
  cases op <;> simp only [decidedBy, Value.truthy_mapBody]

theorem rangeBound_mapBody (v : Value) : rangeBound (v.mapBody g) = rangeBound v := by
  cases v <;> rfl

theorem makeRange_mapBody (args : List Value) :
    makeRange (args.map (Value.mapBody g)) = makeRange args := by
  match args with
  | [] => rfl
  | [stop] => simp only [List.map, makeRange, rangeBound_mapBody]
  | [start, stop] => simp only [List.map, makeRange, rangeBound_mapBody]
  | _ :: _ :: _ :: _ => simp only [List.map, makeRange, List.length_cons, List.length_map]

/-! ## Arenas -/

/-- The same bindings of names, with all bodies changed. -/
def Bindings.mapBody (b : Bindings) : Bindings := b.map fun p => (p.1, p.2.mapBody g)

def Frame.mapBody (fr : Frame) : Frame := { fr with bindings := fr.bindings.mapBody g }

/-- The same arena, with all bodies changed. -/
def Arena.mapBody (a : Arena) : Arena :=
  { a with
    frames := a.frames.map (Frame.mapBody g)
    tracked := a.tracked.map (Closure.mapBody g) }

theorem Bindings.lookup_mapBody (b : Bindings) (name : String) :
    (b.mapBody g).lookup name = (b.lookup name).map (Value.mapBody g) := by
  induction b with
  | nil => rfl
  | cons p b ih =>
    obtain ⟨n, v⟩ := p
    by_cases hn : name = n
    · simp [mapBody, hn]
    · have hb : (name == n) = false := beq_eq_false_iff_ne.mpr hn
      simpa [mapBody, List.lookup_cons, hb] using ih

theorem Bindings.mapBody_insert (b : Bindings) (name : String) (v : Value) :
    (b.insert name v).mapBody g = (b.mapBody g).insert name (v.mapBody g) := by
  induction b with
  | nil => rfl
  | cons p b ih =>
    obtain ⟨n, u⟩ := p
    by_cases hn : n = name
    · simp [mapBody, insert, hn]
    · simpa [mapBody, insert, hn] using ih

namespace Arena

variable (a : Arena)

theorem size_mapBody : (a.mapBody g).frames.size = a.frames.size := Array.size_map ..

theorem frame_mapBody (s : Slot) : (a.mapBody g).frame s = (a.frame s).mapBody g := by
  by_cases hs : s < a.frames.size
  · simp [frame, mapBody, Array.getD, hs]
  · rw [frame_of_size_le (by rw [size_mapBody]; exact Nat.not_lt.mp hs),
      frame_of_size_le (Nat.not_lt.mp hs)]
    rfl

theorem enclosing_mapBody (s : Slot) :
    ((a.mapBody g).frame s).enclosing = (a.frame s).enclosing := by
  rw [frame_mapBody]
  rfl

theorem get?_mapBody (s : Slot) (name : String) :
    (a.mapBody g).get? s name = (a.get? s name).map (Value.mapBody g) := by
  rw [get?, frame_mapBody]
  exact Bindings.lookup_mapBody g _ _

theorem isSome_get?_mapBody (s : Slot) (name : String) :
    ((a.mapBody g).get? s name).isSome = (a.get? s name).isSome := by
  rw [get?_mapBody, Option.isSome_map]

theorem ancestor?_mapBody (s : Slot) (d : Nat) :
    (a.mapBody g).ancestor? s d = a.ancestor? s d := by
  induction d generalizing s with
  | zero => rfl
  | succ d ih => simp only [ancestor?, enclosing_mapBody, ih]

theorem findFrom_mapBody (name : String) (n : Nat) (s : Slot) :
    (a.mapBody g).findFrom name n s = a.findFrom name n s := by
  induction n generalizing s with
  | zero => rfl
  | succ n ih => simp only [findFrom, isSome_get?_mapBody, enclosing_mapBody, ih]

/-- **The search by name** finds the same frame. -/
theorem find?_mapBody (s : Slot) (name : String) :
    (a.mapBody g).find? s name = a.find? s name := by
  rw [find?, size_mapBody, findFrom_mapBody]
  rfl

theorem modify_mapBody {h h' : Frame → Frame} (s : Slot)
    (hmap : ∀ fr : Frame, (h fr).mapBody g = h' (fr.mapBody g)) :
    (a.modify s h).mapBody g = (a.mapBody g).modify s h' := by
  have hframes : (a.frames.modify s h).map (Frame.mapBody g) =
      (a.frames.map (Frame.mapBody g)).modify s h' := by
    ext i hi hi'
    · simp
    · simp only [Array.getElem_map, Array.getElem_modify]
      split_ifs
      · exact hmap _
      · rfl
  simp [modify, mapBody, hframes]

theorem define_mapBody (s : Slot) (name : String) (v : Value) :
    (a.define s name v).mapBody g = (a.mapBody g).define s name (v.mapBody g) :=
  a.modify_mapBody g s fun fr => by simp only [Frame.mapBody, Bindings.mapBody_insert]

theorem captureFrom_mapBody (n : Nat) (s : Slot) :
    (a.captureFrom n s).mapBody g = (a.mapBody g).captureFrom n s := by
  induction n generalizing a s with
  | zero => rfl
  | succ n ih =>
    let mark (fr : Frame) : Frame := { fr with captured := true }
    have hmark : (a.modify s mark).mapBody g = (a.mapBody g).modify s mark :=
      a.modify_mapBody g s fun _ => rfl
    have hcaptured : ((a.mapBody g).frame s).captured = (a.frame s).captured := by
      rw [frame_mapBody]
      rfl
    simp only [captureFrom, hcaptured, enclosing_mapBody]
    split_ifs
    · rfl
    · cases (a.frame s).enclosing with
      | none => exact hmark
      | some outer => exact (ih _ _).trans (congrArg (·.captureFrom n outer) hmark)

theorem capture_mapBody (s : Slot) : (a.capture s).mapBody g = (a.mapBody g).capture s := by
  rw [capture, captureFrom_mapBody, capture, size_mapBody]

theorem note_mapBody (f : Closure) :
    (a.note f).mapBody g = (a.mapBody g).note (f.mapBody g) := by
  simp [note, mapBody, Array.map_push]

theorem append_mapBody (env : Slot) :
    (a.append (fresh env)).2.mapBody g = ((a.mapBody g).append (fresh env)).2 := by
  simp [append, mapBody, Array.map_push, fresh, Frame.mapBody, Bindings.mapBody]

end Arena

end Scriptlet
