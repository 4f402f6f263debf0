import Scriptlet.Eval.Outcome
import Scriptlet.Proofs.Arena.Collection

/-!
# Arenas with different slots

Two arenas hold the same environments if a renaming of slots takes the live frames of one to frames
of the other. The second arena may hold more: frames that the first has freed.

* `Value.rename`: a value in the other arena.
* `Arena.Mirrors`: **the live frames of `a` are frames of `b` under a renaming**.
* `Arena.Mirrors.getAt?`, `Arena.Mirrors.find?`: both arenas answer alike.
* `Arena.Mirrors.define`, `Arena.Mirrors.place`: both arenas can be changed alike.
-/

namespace Scriptlet

open Arena (globals)

/-! ## Renaming -/

/-- The same function over a renamed frame. -/
def Closure.rename (φ : Slot → Slot) (f : Closure) : Closure := { f with env := φ f.env }

/-- The same value, with the frame of a function renamed. -/
def Value.rename (φ : Slot → Slot) : Value → Value
  | .function f => .function (f.rename φ)
  | v => v

/-- The same bindings, with all values renamed. -/
def Bindings.rename (φ : Slot → Slot) (b : Bindings) : Bindings :=
  b.map fun p => (p.1, p.2.rename φ)

namespace Value

variable (φ : Slot → Slot)

theorem truthy_rename (v : Value) : (v.rename φ).truthy = v.truthy := by cases v <;> rfl

theorem text_rename (v : Value) : (v.rename φ).text = v.text := by cases v <;> rfl

theorem equals_rename (ψ : Slot → Slot) (v u : Value) :
    (v.rename φ).equals (u.rename ψ) = v.equals u := by
  cases v <;> cases u <;> rfl

theorem rename_of_closure?_eq_none {v : Value} (h : v.closure? = none) : v.rename φ = v := by
  cases v <;> first | rfl | cases h

variable {φ}

theorem rename_congr {ψ : Slot → Slot} {v : Value}
    (h : ∀ f, v = .function f → φ f.env = ψ f.env) : v.rename φ = v.rename ψ := by
  cases v with
  | function f => simp [rename, Closure.rename, h f rfl]
  | _ => rfl

end Value

namespace Bindings

variable (φ : Slot → Slot)

theorem lookup_rename (b : Bindings) (name : String) :
    (b.rename φ).lookup name = (b.lookup name).map (Value.rename φ) := by
  induction b with
  | nil => rfl
  | cons p b ih =>
    obtain ⟨n, v⟩ := p
    by_cases hn : name = n
    · simp [rename, hn]
    · have hb : (name == n) = false := beq_eq_false_iff_ne.mpr hn
      simpa [rename, List.lookup_cons, hb] using ih

theorem rename_insert (b : Bindings) (name : String) (v : Value) :
    (b.insert name v).rename φ = (b.rename φ).insert name (v.rename φ) := by
  induction b with
  | nil => rfl
  | cons p b ih =>
    obtain ⟨n, u⟩ := p
    by_cases hn : n = name
    · simp [rename, insert, hn]
    · simpa [rename, insert, hn] using ih

variable {φ}

theorem rename_congr {ψ : Slot → Slot} {b : Bindings}
    (h : ∀ name f, (name, Value.function f) ∈ b → φ f.env = ψ f.env) :
    b.rename φ = b.rename ψ := by
  refine List.map_congr_left fun p hp => ?_
  rw [Value.rename_congr fun f hf => h p.1 f (hf ▸ hp)]

end Bindings

/-! ## Tracking under a host -/

namespace Host

@[simp] theorem frames_track (host : Host) (f : Closure) (held : List Value) (a : Arena) :
    (host.track f held a).frames = a.frames := by
  unfold Host.track
  split_ifs
  · exact Arena.frames_track a f _
  · rfl

@[simp] theorem frame_track (host : Host) (f : Closure) (held : List Value) (a : Arena)
    (s : Slot) : (host.track f held a).frame s = a.frame s := by
  rw [Arena.frame, frames_track, Arena.frame]

end Host

/-! ## Mirrored arenas -/

namespace Arena

/-- **The live frames of `a` are frames of `b`**, at the slots that `φ` gives. -/
structure Mirrors (φ : Slot → Slot) (a b : Arena) : Prop where
  inj {s t : Slot} (hs : (a.frame s).live) (ht : (a.frame t).live) (h : φ s = φ t) : s = t
  globals : φ globals = globals
  lt_size {s : Slot} (hs : (a.frame s).live) : φ s < b.frames.size
  bindings {s : Slot} (hs : (a.frame s).live) :
    (b.frame (φ s)).bindings = (a.frame s).bindings.rename φ
  enclosing {s : Slot} (hs : (a.frame s).live) :
    (b.frame (φ s)).enclosing = (a.frame s).enclosing.map φ

namespace Mirrors

variable {φ : Slot → Slot} {a b : Arena} (h : Mirrors φ a b) {s : Slot} {name : String}
include h

/-! ### Reading -/

theorem get? (hs : (a.frame s).live) :
    b.get? (φ s) name = (a.get? s name).map (Value.rename φ) := by
  rw [Arena.get?, h.bindings hs, Bindings.lookup_rename]
  rfl

theorem isSome_get? (hs : (a.frame s).live) :
    (b.get? (φ s) name).isSome = (a.get? s name).isSome := by
  rw [h.get? hs, Option.isSome_map]

theorem ancestor? (ha : a.Shaped) (hs : (a.frame s).live) (d : Nat) :
    b.ancestor? (φ s) d = (a.ancestor? s d).map φ := by
  induction d generalizing s with
  | zero => rfl
  | succ d ih =>
    rw [Arena.ancestor?, Arena.ancestor?, h.enclosing hs]
    cases he : (a.frame s).enclosing with
    | none => rfl
    | some outer => exact ih (ha.live_enclosing hs he)

theorem getAt? (ha : a.Shaped) (hs : (a.frame s).live) (d : Nat) :
    b.getAt? (φ s) d name = (a.getAt? s d name).map (Value.rename φ) := by
  rw [Arena.getAt?, Arena.getAt?, h.ancestor? ha hs]
  cases ht : a.ancestor? s d with
  | none => rfl
  | some t => exact h.get? (ha.live_ancestor? hs ht)

theorem findFrom (h0 : (a.frame Arena.globals).enclosing = none) {path : List Slot}
    (hp : a.Outward s path) (hlive : ∀ t ∈ path, (a.frame t).live) {n : Nat}
    (hn : path.length ≤ n) :
    b.findFrom name n (φ s) = (path.find? fun t => (a.get? t name).isSome).map φ := by
  induction hp generalizing n with
  | arrived =>
    have hl := hlive _ (List.mem_singleton_self _)
    obtain ⟨n, rfl⟩ := Nat.exists_eq_succ_of_ne_zero (Nat.ne_of_gt hn)
    simp only [Arena.findFrom, h.isSome_get? hl, h.enclosing hl, h0, Option.map_none, List.find?]
    split_ifs with hg <;> simp [hg]
  | link live enclosing rest _ ih =>
    obtain ⟨n, rfl⟩ := Nat.exists_eq_succ_of_ne_zero (Nat.ne_of_gt (Nat.zero_lt_of_lt hn))
    simp only [Arena.findFrom, h.isSome_get? live, h.enclosing live, enclosing, Option.map_some,
      List.find?]
    split_ifs with hg
    · simp [hg]
    · simp [hg, ih (fun t ht => hlive t (List.mem_cons_of_mem _ ht)) (Nat.le_of_succ_le_succ hn)]

/-- **Both searches by name find the same frame**, however large the arenas are. -/
theorem find? (ha : a.Shaped) (hs : (a.frame s).live) :
    b.find? (φ s) name = (a.find? s name).map φ := by
  obtain ⟨path, hp⟩ := ha.outward hs
  have hlive : ∀ t ∈ path, (a.frame t).live := fun t ht => hp.live ha.globals_live ht
  have hlength : path.length ≤ b.frames.size := by
    have hnodup : (path.map φ).Nodup :=
      hp.nodup.map_on fun t ht u hu e => h.inj (hlive t ht) (hlive u hu) e
    have hsub : path.map φ ⊆ List.range b.frames.size := by
      intro t ht
      obtain ⟨u, hu, rfl⟩ := List.mem_map.mp ht
      exact List.mem_range.mpr (h.lt_size (hlive u hu))
    simpa using hnodup.length_le_of_subset hsub
  rw [hp.find? ha.globals_live ha.globals_outermost]
  exact h.findFrom ha.globals_outermost hp hlive hlength

theorem lookup? (ha : a.Shaped) (hs : (a.frame s).live) :
    b.lookup? (φ s) name = (a.lookup? s name).map (Value.rename φ) := by
  rw [Arena.lookup?, Arena.lookup?, h.find? ha hs]
  cases ht : a.find? s name with
  | none => rfl
  | some t => exact h.get? (ha.live_of_get? (isSome_get?_of_findFrom ht))

end Mirrors

theorem Mirrors.refl (a : Arena) : Mirrors id a a where
  inj _ _ h := h
  globals := rfl
  lt_size hs := lt_size_of_live hs
  bindings {s} _ := by
    have hid : ∀ v : Value, v.rename id = v := fun v => by cases v <;> rfl
    simp [Bindings.rename, hid]
  enclosing _ := by simp

/-! ### Changing one arena -/

section Change

variable {φ : Slot → Slot} {a a' b b' : Arena} (h : Mirrors φ a b)
include h

theorem Mirrors.of_live
    (ha : ∀ s, (a'.frame s).live → (a.frame s).live ∧
      (a'.frame s).bindings = (a.frame s).bindings ∧
      (a'.frame s).enclosing = (a.frame s).enclosing) : Mirrors φ a' b where
  inj hs ht := h.inj (ha _ hs).1 (ha _ ht).1
  globals := h.globals
  lt_size hs := h.lt_size (ha _ hs).1
  bindings hs := by rw [(ha _ hs).2.1]; exact h.bindings (ha _ hs).1
  enclosing hs := by rw [(ha _ hs).2.2]; exact h.enclosing (ha _ hs).1

theorem Mirrors.of_marks (hsize : b'.frames.size = b.frames.size)
    (hb : ∀ s, (b'.frame s).bindings = (b.frame s).bindings ∧
      (b'.frame s).enclosing = (b.frame s).enclosing) : Mirrors φ a b' where
  inj := h.inj
  globals := h.globals
  lt_size hs := by rw [hsize]; exact h.lt_size hs
  bindings hs := by rw [(hb _).1]; exact h.bindings hs
  enclosing hs := by rw [(hb _).2]; exact h.enclosing hs

theorem Mirrors.capture (s t : Slot) : Mirrors φ (a.capture s) (b.capture t) :=
  (h.of_live fun u hu => ⟨by simpa using hu, by simp, by simp⟩).of_marks (by simp) fun u => by simp

theorem Mirrors.track (host host' : Host) (f g : Closure) (held held' : List Value) :
    Mirrors φ (host.track f held a) (host'.track g held' b) :=
  (h.of_live fun u hu => ⟨by simpa using hu, by simp, by simp⟩).of_marks (by simp) fun u => by simp

/-! ### Changing both arenas -/

/-- The frame at `φ s`, and no other, changes with the frame at `s`. -/
theorem Mirrors.define {s : Slot} (hs : (a.frame s).live) (name : String) (v : Value) :
    Mirrors φ (a.define s name v) (b.define (φ s) name (v.rename φ)) := by
  have hlive : ∀ {t}, ((a.define s name v).frame t).live → (a.frame t).live :=
    fun ht => by rwa [live_define] at ht
  have hframe : (b.define (φ s) name (v.rename φ)).frame (φ s) =
      { b.frame (φ s) with bindings := (b.frame (φ s)).bindings.insert name (v.rename φ) } := by
    rw [Arena.define, frame_modify, if_pos ⟨rfl, h.lt_size hs⟩]
  exact {
    inj := fun hs ht => h.inj (hlive hs) (hlive ht)
    globals := h.globals
    lt_size := fun ht => by rw [size_define]; exact h.lt_size (hlive ht)
    bindings := fun {t} ht => by
      by_cases e : t = s
      · subst e
        rw [hframe, frame_define_self hs, Bindings.rename_insert, h.bindings hs]
      · rw [frame_define_of_ne e, frame_define_of_ne fun e' => e (h.inj (hlive ht) hs e'),
          h.bindings (hlive ht)]
    enclosing := fun ht => by
      rw [enclosing_define, enclosing_define]
      exact h.enclosing (hlive ht) }

/-- **A frame is opened in both arenas**, in the slot freed last and behind all others. -/
theorem Mirrors.place (ha : a.Shaped)
    (hbound : ∀ s f, (a.frame s).live → f ∈ (a.frame s).closures → (a.frame f.env).live)
    {env : Slot} (henv : (a.frame env).live) :
    Mirrors (Function.update φ (a.place (fresh env)).1 b.frames.size)
      (a.place (fresh env)).2 (b.append (fresh (φ env))).2 := by
  have hold : ∀ {t}, (a.frame t).live →
      Function.update φ (a.place (fresh env)).1 b.frames.size t = φ t := fun ht =>
    Function.update_of_ne (ha.ne_place _ ht) _ _
  have hnew : Function.update φ (a.place (fresh env)).1 b.frames.size (a.place (fresh env)).1 =
      b.frames.size := Function.update_self _ _ _
  have hframe : ∀ {t}, (a.frame t).live →
      (b.append (fresh (φ env))).2.frame (φ t) = b.frame (φ t) := fun ht => by
    rw [frame_append, if_neg (Nat.ne_of_lt (h.lt_size ht))]
  -- a live frame of the new arena is the new one or an old one
  have hcases : ∀ {t}, ((a.place (fresh env)).2.frame t).live →
      t = (a.place (fresh env)).1 ∨ (a.frame t).live := by
    intro t ht
    by_cases e : t = (a.place (fresh env)).1
    · exact .inl e
    · exact .inr (ha.frame_place_of_ne _ e ▸ ht)
  exact {
    inj := fun {s t} hs ht he => by
      rcases hcases hs with rfl | hs <;> rcases hcases ht with rfl | ht
      · rfl
      · rw [hnew, hold ht] at he
        exact absurd he.symm (Nat.ne_of_lt (h.lt_size ht))
      · rw [hnew, hold hs] at he
        exact absurd he (Nat.ne_of_lt (h.lt_size hs))
      · rw [hold hs, hold ht] at he
        exact h.inj hs ht he
    globals := by rw [hold ha.globals_live]; exact h.globals
    lt_size := fun ht => by
      rw [append, Array.size_push]
      rcases hcases ht with rfl | ht
      · rw [hnew]; exact Nat.lt_succ_self _
      · rw [hold ht]; exact Nat.lt_succ_of_lt (h.lt_size ht)
    bindings := fun {t} ht => by
      rcases hcases ht with rfl | ht
      · rw [hnew, frame_append, if_pos rfl, ha.frame_place_self]
        rfl
      · rw [hold ht, hframe ht, h.bindings ht, ha.frame_place_of_live _ ht]
        refine Bindings.rename_congr fun name f hf => (hold ?_).symm
        exact hbound t f ht (Frame.mem_closures.mpr ⟨name, hf⟩)
    enclosing := fun {t} ht => by
      rcases hcases ht with rfl | ht
      · rw [hnew, frame_append, if_pos rfl, ha.frame_place_self]
        exact congrArg some (hold henv).symm
      · rw [hold ht, hframe ht, h.enclosing ht, ha.frame_place_of_live _ ht]
        cases he : (a.frame t).enclosing with
        | none => rfl
        | some outer => exact congrArg some (hold (ha.live_enclosing ht he)).symm }

end Change

end Arena

end Scriptlet
