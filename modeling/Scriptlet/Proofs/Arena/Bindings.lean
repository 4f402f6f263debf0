import Scriptlet.Eval.Outcome
import Scriptlet.Proofs.Arena.Collection

/-!
# Bound values

The values that frames bind come from definitions and from nowhere else: opening, closing and
collecting frames leaves the bindings of a frame as they are or drops all of them.

* `Arena.Binds`: **every bound value has a property**.
* `Arena.Binds.define`, `Arena.Binds.push`, `Arena.Binds.release`: what keeps it so.
* `Arena.binds_withBuiltins`: a fresh interpreter binds native functions only.
-/

namespace Scriptlet

namespace Arena

variable {P : Value → Prop} {a b : Arena}

/-- Every value that a frame binds satisfies `P`. -/
def Binds (P : Value → Prop) (a : Arena) : Prop := ∀ s, ∀ p ∈ (a.frame s).bindings, P p.2

namespace Binds

theorem of_bindings (h : a.Binds P)
    (hb : ∀ s, (b.frame s).bindings = (a.frame s).bindings ∨ (b.frame s).bindings = []) :
    b.Binds P := by
  intro s p hp
  obtain hs | hs := hb s <;> rw [hs] at hp
  · exact h s p hp
  · cases hp

theorem define (h : a.Binds P) {v : Value} (hv : P v) (s : Slot) (name : String) :
    (a.define s name v).Binds P := by
  rintro t ⟨m, u⟩ hp
  rw [Arena.define, frame_modify] at hp
  split_ifs at hp
  · rcases Bindings.mem_insert hp with rfl | hp
    · exact hv
    · exact h s _ hp
  · exact h t _ hp

theorem makeRoom (h : a.Binds P) (held : List Value) : (a.makeRoom held).Binds P := by
  refine h.of_bindings fun s => ?_
  unfold Arena.makeRoom
  split_ifs
  · change ((a.collect held).frame s).bindings = _ ∨ ((a.collect held).frame s).bindings = _
    rw [frame_collect]
    split_ifs
    · exact .inr rfl
    · exact .inl rfl
  · exact .inl rfl

theorem append (h : a.Binds P) (env : Slot) : (a.append (fresh env)).2.Binds P := by
  refine h.of_bindings fun s => ?_
  rw [frame_append]
  split_ifs
  · exact .inr rfl
  · exact .inl rfl

theorem push (h : a.Binds P) (env : Slot) (held : List Value) : (a.push env held).2.Binds P := by
  have hroom := h.makeRoom held
  rcases place_cases (a.makeRoom held) (fresh env) with ⟨s, rest, -, hp⟩ | ⟨-, hp⟩
  · refine hroom.of_bindings fun t => ?_
    have hframe : (a.push env held).2.frame t =
        ((a.makeRoom held).modify s fun _ => fresh env).frame t := by
      rw [Arena.push, hp]
      rfl
    rw [hframe, frame_modify]
    split_ifs
    · exact .inr rfl
    · exact .inl rfl
  · rw [Arena.push, hp]
    exact hroom.append env

theorem release (h : a.Binds P) (s : Slot) : (a.release s).Binds P := by
  refine h.of_bindings fun t => ?_
  unfold Arena.release
  split_ifs
  · rw [frame_modify]
    split_ifs with ht
    · exact .inl (by rw [ht.1])
    · exact .inl rfl
  · rw [frame_freeSlot]
    split_ifs
    · exact .inr rfl
    · exact .inl rfl

theorem capture (h : a.Binds P) (s : Slot) : (a.capture s).Binds P :=
  h.of_bindings fun t => .inl (bindings_capture a s t)

theorem get? (h : a.Binds P) {s : Slot} {name : String} {v : Value}
    (hv : a.get? s name = some v) : P v :=
  h s _ (Bindings.mem_of_lookup hv)

theorem track (h : a.Binds P) (host : Host) (f : Closure) (held : List Value) :
    (host.track f held a).Binds P := by
  unfold Host.track
  split_ifs
  · exact h.of_bindings fun s => .inl (by rw [frame_track])
  · exact h.of_bindings fun s => .inl (by rw [frame_note])

/-! ## States -/

section States

variable {σ : State} (h : σ.arena.Binds P) (host : Host)
include h

theorem statePush (env : Slot) (held : List Value) :
    (σ.push host env held).2.arena.Binds P := by
  unfold State.push
  split_ifs
  · exact h.push env held
  · exact h.append env

theorem stateRelease (s : Slot) : (σ.release host s).arena.Binds P := by
  unfold State.release
  split_ifs
  · exact h.release s
  · exact h

end States

end Binds

theorem binds_withBuiltins (h : ∀ f, P (.builtin f)) : withBuiltins.Binds P := by
  have hempty : empty.Binds P := by
    intro s p hp
    cases s with
    | zero => cases hp
    | succ s =>
      rw [frame_of_size_le (Nat.le_add_left 1 s)] at hp
      cases hp
  have hdefine : ∀ (fs : List Builtin) (a : Arena), a.Binds P →
      (fs.foldl (fun a f => a.define globals f.name (.builtin f)) a).Binds P := by
    intro fs
    induction fs with
    | nil => exact fun _ ha => ha
    | cons f fs ih => exact fun a ha => ih _ (ha.define (h f) globals f.name)
  exact hdefine Builtin.all empty hempty

end Arena

end Scriptlet
