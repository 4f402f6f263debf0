import Scriptlet.Proofs.Arena.Shape

/-!
# The discipline of arenas

An arena is used together with function values that live outside it. A `World` is an arena with the
values held outside, and `World.Step` are the moves that its users make: a frame is opened inside an
active frame or inside the environment of a held function, closed when no active frame is left
inside it, and a function is only made over an active frame that is captured.

* `World.Valid`: **the representation invariant of arenas**: shape and marks, and the functions that
  are alive have live environments.
* `World.Valid.freeAll`: frames that nothing refers to can be freed. Closing a frame and collecting
  are both cases of it.
* `World.Valid.place`, `World.Valid.release`, `World.Valid.define` and so on: the moves that never
  collect keep the invariant.
-/

namespace Scriptlet

open Arena (globals)

/-- An arena, the values that are held outside it, and how many functions have been made. -/
structure World where
  arena : Arena
  held : List Value
  made : Nat

namespace World

/-- A function that is held outside or bound in a live frame. -/
def Alive (w : World) (f : Closure) : Prop :=
  .function f ∈ w.held ∨ ∃ s, (w.arena.frame s).live ∧ f ∈ (w.arena.frame s).closures

/-- A value that can be bound in a frame: if it is a function, it is still alive. -/
def Storable (w : World) (v : Value) : Prop := ∀ f, v = .function f → w.Alive f

theorem storable_plain {w : World} {v : Value} (hv : v.closure? = none) : w.Storable v := by
  intro f hf
  rw [hf] at hv
  cases hv

/-- A frame may be opened inside an active frame, or inside the environment of a tracked function
that is held outside. -/
def Opens (w : World) (env : Slot) : Prop :=
  (w.arena.frame env).active ∨
    ∃ f, .function f ∈ w.held ∧ f ∈ w.arena.tracked ∧ f.env = env

/-- An active frame other than the globals may be closed if no active frame is inside it. -/
def Closes (w : World) (s : Slot) : Prop :=
  (w.arena.frame s).active ∧ s ≠ globals ∧
    ∀ t, (w.arena.frame t).active → (w.arena.frame t).enclosing ≠ some s

/-- The function that is made next, over a given frame. -/
def next (w : World) (name : String) (params : List String) (body : List Stmt) (env : Slot) :
    Closure :=
  ⟨w.made, name, params, body, env⟩

/-- **The moves of a user of an arena.** -/
inductive Step : World → World → Prop
  | push {w : World} (env : Slot) (opens : w.Opens env) :
    Step w { w with arena := (w.arena.push env w.held).2 }
  | release {w : World} (s : Slot) (closes : w.Closes s) :
    Step w { w with arena := w.arena.release s }
  | capture {w : World} (s : Slot) (live : (w.arena.frame s).live) :
    Step w { w with arena := w.arena.capture s }
  | function {w : World} (env : Slot) (active : (w.arena.frame env).active)
      (captured : (w.arena.frame env).captured) (name : String) (params : List String)
      (body : List Stmt) :
    Step w ⟨w.arena.track (w.next name params body env)
        (.function (w.next name params body env) :: w.held),
      .function (w.next name params body env) :: w.held, w.made + 1⟩
  | define {w : World} (s : Slot) (live : (w.arena.frame s).live) (name : String) (v : Value)
      (storable : w.Storable v) :
    Step w { w with arena := w.arena.define s name v }
  | assignAt {w : World} {s : Slot} (live : (w.arena.frame s).live) {distance : Nat}
      {name : String} {v : Value} (storable : w.Storable v) {b : Arena}
      (assigned : w.arena.assignAt? s distance name v = some b) :
    Step w { w with arena := b }
  | assign {w : World} {s : Slot} (live : (w.arena.frame s).live) {name : String} {v : Value}
      (storable : w.Storable v) {b : Arena} (assigned : w.arena.assign? s name v = some b) :
    Step w { w with arena := b }
  | collect {w : World} : Step w { w with arena := w.arena.collect w.held }
  | hold {w : World} (v : Value) (storable : w.Storable v) : Step w { w with held := v :: w.held }
  | drop {w : World} (held : List Value) (subset : held ⊆ w.held) : Step w { w with held := held }

/-- A fresh arena, with nothing outside. -/
def start : World := ⟨.empty, [], 0⟩

/-- The worlds that moves lead to. -/
inductive Reachable : World → Prop
  | start : Reachable start
  | step {w w' : World} (reachable : Reachable w) (step : Step w w') : Reachable w'

/-! ## The invariant -/

/-- **The representation invariant of arenas**, functions included. -/
structure Valid (w : World) : Prop extends Arena.Shaped w.arena, Arena.Marked w.arena where
  /-- A function that is alive is looked after, and its environment is kept. -/
  tracked {f : Closure} (h : w.Alive f) : f ∈ w.arena.tracked
  env_live {f : Closure} (h : w.Alive f) : (w.arena.frame f.env).live
  env_captured {f : Closure} (h : w.Alive f) : (w.arena.frame f.env).captured
  /-- No two functions share an `id`. -/
  id_lt {f : Closure} (h : f ∈ w.arena.tracked) : f.id < w.made
  id_inj {f g : Closure} (hf : f ∈ w.arena.tracked) (hg : g ∈ w.arena.tracked)
    (h : f.id = g.id) : f = g

namespace Valid

variable {w : World} (hw : w.Valid)
include hw

theorem live_of_opens {env : Slot} (h : w.Opens env) : (w.arena.frame env).live := by
  rcases h with h | ⟨f, hf, -, rfl⟩
  · exact hw.live_of_active h
  · exact hw.env_live (.inl hf)

/-- A change of the arena that keeps the environments of the functions that stay alive. -/
theorem of_change {b : Arena} (hshaped : b.Shaped) (hmarked : b.Marked)
    (htracked : b.tracked = w.arena.tracked)
    (halive : ∀ f, Alive { w with arena := b } f →
      w.Alive f ∧ (b.frame f.env).live ∧ (b.frame f.env).captured) :
    Valid { w with arena := b } where
  toShaped := hshaped
  toMarked := hmarked
  tracked h := by rw [htracked]; exact hw.tracked (halive _ h).1
  env_live h := (halive _ h).2.1
  env_captured h := (halive _ h).2.2
  id_lt h := hw.id_lt (by rwa [htracked] at h)
  id_inj hf hg := by
    rw [htracked] at hf hg
    exact hw.id_inj hf hg

/-- **Frames that nothing else refers to can be freed.** -/
theorem freeAll {ss : List Slot} (hnodup : ss.Nodup) (hlive : ∀ s ∈ ss, (w.arena.frame s).live)
    (h0 : globals ∉ ss)
    (hlink : ∀ t outer, (w.arena.frame t).live → t ∉ ss →
      (w.arena.frame t).enclosing = some outer → outer ∉ ss)
    (henv : ∀ f, (.function f ∈ w.held ∨ ∃ t, (w.arena.frame t).live ∧ t ∉ ss ∧
      f ∈ (w.arena.frame t).closures) → f.env ∉ ss) :
    Valid { w with arena := w.arena.freeAll ss } := by
  refine hw.of_change (hw.toShaped.freeAll hnodup hlive h0 hlink)
    (hw.toMarked.freeAll hw.toShaped h0 hlink) (Arena.tracked_freeAll _ _) fun f hf => ?_
  have hf' : w.Alive f ∧ f.env ∉ ss := by
    rcases hf with h | ⟨t, hl, hf⟩
    · exact ⟨.inl h, henv f (.inl h)⟩
    · obtain ⟨ht, e⟩ := Arena.frame_freeAll_of_live hl
      rw [e] at hl hf
      exact ⟨.inr ⟨t, hl, hf⟩, henv f (.inr ⟨t, hl, ht, hf⟩)⟩
  rw [Arena.frame_freeAll_of_not_mem hf'.2]
  exact ⟨hf'.1, hw.env_live hf'.1, hw.env_captured hf'.1⟩

theorem place {env : Slot} (henv : (w.arena.frame env).live) :
    Valid { w with arena := (w.arena.place (Arena.fresh env)).2 } := by
  refine hw.of_change (hw.toShaped.place henv) (hw.toMarked.place hw.toShaped)
    (Arena.tracked_place _ _) fun f hf => ?_
  have hf' : w.Alive f := by
    rcases hf with h | ⟨t, hl, hf⟩
    · exact .inl h
    · by_cases ht : t = (w.arena.place (Arena.fresh env)).1
      · rw [ht, hw.frame_place_self] at hf
        cases hf
      · rw [hw.frame_place_of_ne _ ht] at hl hf
        exact .inr ⟨t, hl, hf⟩
  rw [hw.frame_place_of_live _ (hw.env_live hf')]
  exact ⟨hf', hw.env_live hf', hw.env_captured hf'⟩

theorem capture {s : Slot} (hs : (w.arena.frame s).live) :
    Valid { w with arena := w.arena.capture s } := by
  obtain ⟨path, hp⟩ := hw.outward hs
  refine hw.of_change (hw.toShaped.capture hw.toMarked hs) (hw.toMarked.capture hw.toShaped hs)
    (Arena.tracked_capture _ _) fun f hf => ?_
  have hf' : w.Alive f := by
    refine hf.imp id fun ⟨t, hl, hf⟩ => ⟨t, by simpa using hl, ?_⟩
    simpa [Frame.closures] using hf
  rw [hw.toShaped.frame_capture hw.toMarked hp]
  simp [hf', hw.env_live hf', hw.env_captured hf']

theorem deactivate {s : Slot} (hs : w.Closes s) (hc : (w.arena.frame s).captured) :
    Valid { w with arena := w.arena.modify s fun fr => { fr with active := false } } := by
  obtain ⟨hactive, hne, -⟩ := hs
  have hframe := Arena.frame_deactivate (hw.live_of_active hactive)
  refine hw.of_change ?_ ?_ rfl fun f hf => ?_
  · refine hw.toShaped.congr (by simp) (by simp) (fun t => by rw [hframe])
      (fun t => by rw [hframe]) fun t ht => ?_
    rw [hframe, hw.empty ht]
    rfl
  · exact {
      globals_active := by rw [hframe]; simp [hw.globals_active, Ne.symm hne]
      globals_captured := by rw [hframe]; exact hw.globals_captured
      active_or_captured := fun {t} h => by
        rw [hframe] at h ⊢
        by_cases ht : t = s
        · exact .inr (ht ▸ hc)
        · simpa [ht] using hw.active_or_captured h
      captured_enclosing := fun h he => by
        rw [hframe] at h he ⊢
        exact hw.captured_enclosing h he }
  · have hf' : w.Alive f := by
      refine hf.imp id fun ⟨t, hl, hf⟩ => ⟨t, ?_⟩
      rw [hframe] at hl hf
      exact ⟨hl, hf⟩
    rw [hframe]
    exact ⟨hf', hw.env_live hf', hw.env_captured hf'⟩

/-- **Closing a frame.** One that is not captured is freed at once: the frames inside it would be
active, and no function closes over it. -/
theorem release {s : Slot} (hs : w.Closes s) : Valid { w with arena := w.arena.release s } := by
  unfold Arena.release
  split_ifs with hc
  · exact hw.deactivate hs hc
  · obtain ⟨hactive, hne, hinner⟩ := hs
    refine hw.freeAll (List.nodup_singleton s) ?_ ?_ ?_ ?_
    · exact fun t ht => List.mem_singleton.mp ht ▸ hw.live_of_active hactive
    · exact fun h => hne (List.mem_singleton.mp h).symm
    · intro t outer hl _ he hmem
      obtain rfl := List.mem_singleton.mp hmem
      rcases hw.active_or_captured hl with ha | hcap
      · exact hinner t ha he
      · exact hc (hw.captured_enclosing hcap he)
    · intro f hf hmem
      have halive : w.Alive f := hf.imp id fun ⟨t, hl, _, hf⟩ => ⟨t, hl, hf⟩
      exact hc (List.mem_singleton.mp hmem ▸ hw.env_captured halive)

/-! ## Bindings and functions -/

theorem define {s : Slot} (hs : (w.arena.frame s).live) (name : String) {v : Value}
    (hv : w.Storable v) : Valid { w with arena := w.arena.define s name v } := by
  have hother : ∀ {t}, t ≠ s → (w.arena.define s name v).frame t = w.arena.frame t :=
    Arena.frame_define_of_ne
  refine hw.of_change ?_ (hw.toMarked.congr fun t => by simp) rfl fun f hf => ?_
  · exact hw.toShaped.congr rfl (by simp) (by simp) (by simp) fun t ht =>
      hother fun e => ht (e ▸ hs)
  · have hf' : w.Alive f := by
      rcases hf with h | ⟨t, hl, hf⟩
      · exact .inl h
      · by_cases ht : t = s
        · subst ht
          rw [Arena.frame_define_self hs] at hf
          rcases Frame.closures_insert hf with rfl | hf
          · exact hv f rfl
          · exact .inr ⟨t, hs, hf⟩
        · rw [hother ht] at hl hf
          exact .inr ⟨t, hl, hf⟩
    rw [Arena.live_define, Arena.captured_define]
    exact ⟨hf', hw.env_live hf', hw.env_captured hf'⟩

theorem assign {s : Slot} {name : String} {v : Value} (hv : w.Storable v) {b : Arena}
    (h : w.arena.assign? s name v = some b) : Valid { w with arena := b } := by
  obtain ⟨t, ht, rfl⟩ := Arena.define_of_assign? h
  exact hw.define (hw.live_of_get? ht) name hv

theorem assignAt {s : Slot} {distance : Nat} {name : String} {v : Value} (hv : w.Storable v)
    {b : Arena} (h : w.arena.assignAt? s distance name v = some b) :
    Valid { w with arena := b } := by
  obtain ⟨t, ht, rfl⟩ := Arena.define_of_assignAt? h
  exact hw.define (hw.live_of_get? ht) name hv

theorem rehold {held : List Value} (h : ∀ f, .function f ∈ held → w.Alive f) :
    Valid { w with held := held } := by
  have halive : ∀ {f}, Alive { w with held := held } f → w.Alive f :=
    fun hf => hf.elim (h _) .inr
  exact {
    toShaped := hw.toShaped
    toMarked := hw.toMarked
    tracked := fun hf => hw.tracked (halive hf)
    env_live := fun hf => hw.env_live (halive hf)
    env_captured := fun hf => hw.env_captured (halive hf)
    id_lt := hw.id_lt
    id_inj := hw.id_inj }

theorem hold {v : Value} (hv : w.Storable v) : Valid { w with held := v :: w.held } :=
  hw.rehold fun f hf => (List.mem_cons.mp hf).elim (fun e => hv f e.symm) .inl

theorem drop {held : List Value} (h : held ⊆ w.held) : Valid { w with held := held } :=
  hw.rehold fun _ hf => .inl (h hf)

/-- Functions without a holder may be forgotten, and the thresholds may move. -/
theorem retrack {b : Arena} (hframes : b.frames = w.arena.frames) (hfree : b.free = w.arena.free)
    (hsub : ∀ f ∈ b.tracked, f ∈ w.arena.tracked) (h : ∀ f, w.Alive f → f ∈ b.tracked) :
    Valid { w with arena := b } := by
  have hframe : ∀ t, b.frame t = w.arena.frame t := fun t => by simp only [Arena.frame, hframes]
  have halive : ∀ {f}, Alive { w with arena := b } f → w.Alive f := by
    rintro f (hf | ⟨t, hl, hf⟩)
    · exact .inl hf
    · exact .inr ⟨t, hframe t ▸ hl, hframe t ▸ hf⟩
  exact {
    toShaped := hw.toShaped.congr hfree (by rw [hframes]) (fun t => by rw [hframe])
      (fun t => by rw [hframe]) fun t _ => hframe t
    toMarked := hw.toMarked.congr fun t => by simp [hframe]
    tracked := fun hf => h _ (halive hf)
    env_live := fun hf => by rw [hframe]; exact hw.env_live (halive hf)
    env_captured := fun hf => by rw [hframe]; exact hw.env_captured (halive hf)
    id_lt := fun hf => hw.id_lt (hsub _ hf)
    id_inj := fun hf hg => hw.id_inj (hsub _ hf) (hsub _ hg) }

/-! ## References -/

/-- **The functions with references are those that are alive**: an `id` stands for one function, and
frames that are not live bind none. -/
theorem references_pos {f : Closure} (hf : f ∈ w.arena.tracked) :
    0 < w.arena.references w.held f ↔ w.Alive f := by
  have hheld : ∀ g, g ∈ w.held.filterMap Value.closure? ↔ .function g ∈ w.held := fun g => by
    simp [Value.closure?_eq_some]
  rw [Arena.references, Nat.add_pos_iff_pos_or_pos, Arena.occurrences_pos, Arena.occurrences_pos]
  constructor
  · rintro (⟨g, hg, e⟩ | ⟨g, hg, e⟩)
    · have halive : w.Alive g := .inl ((hheld g).mp hg)
      rwa [← hw.id_inj (hw.tracked halive) hf e]
    · obtain ⟨s, -, -, hg⟩ := Arena.mem_closuresWhere.mp hg
      have halive : w.Alive g := .inr ⟨s, hw.live_of_mem_closures hg, hg⟩
      rwa [← hw.id_inj (hw.tracked halive) hf e]
  · rintro (h | ⟨s, hl, h⟩)
    · exact .inl ⟨f, (hheld f).mpr h, rfl⟩
    · exact .inr ⟨f, Arena.mem_closuresWhere.mpr ⟨s, Arena.lt_size_of_live hl, rfl, h⟩, rfl⟩

theorem mem_prune {f : Closure} :
    f ∈ (w.arena.prune w.held).tracked ↔ f ∈ w.arena.tracked ∧ w.Alive f := by
  simp only [Arena.prune, Array.mem_filter, decide_eq_true_eq]
  exact and_congr_right hw.references_pos

theorem prune : Valid { w with arena := w.arena.prune w.held } :=
  hw.retrack rfl rfl (fun _ hf => (hw.mem_prune.mp hf).1)
    fun _ hf => hw.mem_prune.mpr ⟨hw.tracked hf, hf⟩

theorem note {env : Slot} (hactive : (w.arena.frame env).active)
    (hcaptured : (w.arena.frame env).captured) (name : String) (params : List String)
    (body : List Stmt) :
    Valid ⟨w.arena.note (w.next name params body env),
      .function (w.next name params body env) :: w.held, w.made + 1⟩ := by
  have halive : ∀ {f}, Alive ⟨w.arena.note (w.next name params body env),
      .function (w.next name params body env) :: w.held, w.made + 1⟩ f →
      f = w.next name params body env ∨ w.Alive f := by
    rintro f (h | h)
    · rcases List.mem_cons.mp h with h | h
      · exact .inl (Value.function.inj h)
      · exact .inr (.inl h)
    · exact .inr (.inr h)
  have hmem : ∀ {f}, f ∈ (w.arena.note (w.next name params body env)).tracked ↔
      f ∈ w.arena.tracked ∨ f = w.next name params body env := Array.mem_push
  exact {
    toShaped := hw.toShaped.congr rfl rfl (fun _ => rfl) (fun _ => rfl) fun _ _ => rfl
    toMarked := hw.toMarked.congr fun _ => ⟨rfl, rfl, rfl, rfl⟩
    tracked := fun h => hmem.mpr ((halive h).symm.imp hw.tracked id)
    env_live := fun h => by
      rcases halive h with rfl | h
      · exact hw.live_of_active hactive
      · exact hw.env_live h
    env_captured := fun h => by
      rcases halive h with rfl | h
      · exact hcaptured
      · exact hw.env_captured h
    id_lt := fun h => by
      rcases hmem.mp h with h | rfl
      · exact Nat.lt_succ_of_lt (hw.id_lt h)
      · exact Nat.lt_succ_self _
    id_inj := fun hf hg h => by
      rcases hmem.mp hf with hf | rfl <;> rcases hmem.mp hg with hg | rfl
      · exact hw.id_inj hf hg h
      · exact absurd h (Nat.ne_of_lt (hw.id_lt hf))
      · exact absurd h (Nat.ne_of_gt (hw.id_lt hg))
      · rfl }

/-- **A function is made** over an active frame that is captured. -/
theorem function {env : Slot} (hactive : (w.arena.frame env).active)
    (hcaptured : (w.arena.frame env).captured) (name : String) (params : List String)
    (body : List Stmt) :
    Valid ⟨w.arena.track (w.next name params body env)
        (.function (w.next name params body env) :: w.held),
      .function (w.next name params body env) :: w.held, w.made + 1⟩ := by
  have hnote := hw.note hactive hcaptured name params body
  rcases Arena.track_cases w.arena (w.next name params body env)
    (.function (w.next name params body env) :: w.held) with h | ⟨n, h⟩
  · rw [h]
    exact hnote
  · rw [h]
    exact hnote.prune.retrack rfl rfl (fun _ hf => hf) fun _ hf => hnote.prune.tracked hf

end Valid

end World

end Scriptlet
