import Scriptlet.Proofs.Arena.Frames

/-!
# Shape and marks of arenas

The part of the representation invariant that speaks of frames alone.

* `Arena.Shaped`: **slots and links.** The free slots are those without a live frame, and from every
  live frame the links lead to the globals.
* `Arena.Marked`: **marks.** A frame that is closed but not freed is captured, and so are the frames
  around it.
* `Arena.Shaped.freeAll`, `Arena.Shaped.place`, `Arena.Shaped.capture` and their companions for
  marks: each change of frames keeps both.
-/

namespace Scriptlet

namespace Arena

/-- The invariant of slots and links. -/
structure Shaped (a : Arena) : Prop where
  globals_live : (a.frame globals).live
  globals_outermost : (a.frame globals).enclosing = none
  /-- The free slots are those without a live frame, each of them once. -/
  mem_free (s : Slot) : s ∈ a.free ↔ s < a.frames.size ∧ ¬ (a.frame s).live
  free_nodup : a.free.toList.Nodup
  empty {s : Slot} (h : ¬ (a.frame s).live) : a.frame s = {}
  /-- From every live frame the links lead to the globals. -/
  outward {s : Slot} (h : (a.frame s).live) : ∃ path, a.Outward s path

/-- The invariant of marks: a frame that is closed but not freed is captured, and so are the frames
around it. -/
structure Marked (a : Arena) : Prop where
  globals_active : (a.frame globals).active
  globals_captured : (a.frame globals).captured
  active_or_captured {s : Slot} (h : (a.frame s).live) :
    (a.frame s).active ∨ (a.frame s).captured
  captured_enclosing {s outer : Slot} (h : (a.frame s).captured)
    (he : (a.frame s).enclosing = some outer) : (a.frame outer).captured

namespace Shaped

variable {a b : Arena} (ha : a.Shaped) {s : Slot}
include ha

theorem live_of_active (h : (a.frame s).active) : (a.frame s).live := by
  by_contra hl
  rw [ha.empty hl] at h
  cases h

theorem live_of_captured (h : (a.frame s).captured) : (a.frame s).live := by
  by_contra hl
  rw [ha.empty hl] at h
  cases h

theorem live_of_mem_closures {f : Closure} (h : f ∈ (a.frame s).closures) : (a.frame s).live := by
  by_contra hl
  rw [ha.empty hl] at h
  cases h

theorem live_of_get? {name : String} (h : (a.get? s name).isSome) : (a.frame s).live := by
  by_contra hl
  rw [get?, ha.empty hl] at h
  cases h

theorem live_enclosing {outer : Slot} (h : (a.frame s).live)
    (he : (a.frame s).enclosing = some outer) : (a.frame outer).live := by
  obtain ⟨path, hp⟩ := ha.outward h
  cases hp with
  | arrived => rw [ha.globals_outermost] at he; cases he
  | link _ he' rest _ =>
    cases he.symm.trans he'
    exact rest.live ha.globals_live rest.head_mem

theorem live_ancestor? {d : Nat} {t : Slot} (h : (a.frame s).live)
    (hd : a.ancestor? s d = some t) : (a.frame t).live := by
  induction d generalizing s with
  | zero => cases hd; exact h
  | succ d ih =>
    rw [ancestor?] at hd
    split at hd
    · cases hd
    · rename_i outer he
      exact ih (ha.live_enclosing h he) hd

theorem free_lt_size : ∀ s ∈ a.free, s < a.frames.size := fun s hs => ((ha.mem_free s).mp hs).1

theorem congr (hfree : b.free = a.free) (hsize : b.frames.size = a.frames.size)
    (hlive : ∀ t, (b.frame t).live = (a.frame t).live)
    (henclosing : ∀ t, (b.frame t).enclosing = (a.frame t).enclosing)
    (hempty : ∀ t, ¬ (a.frame t).live → b.frame t = a.frame t) : b.Shaped where
  globals_live := by rw [hlive]; exact ha.globals_live
  globals_outermost := by rw [henclosing]; exact ha.globals_outermost
  mem_free s := by rw [hfree, hsize, hlive]; exact ha.mem_free s
  free_nodup := by rw [hfree]; exact ha.free_nodup
  empty {s} h := by
    rw [hlive] at h
    rw [hempty s h, ha.empty h]
  outward {s} h := by
    rw [hlive] at h
    obtain ⟨path, hp⟩ := ha.outward h
    exact ⟨path, hp.congr fun t _ hl => ⟨by rw [hlive]; exact hl, henclosing t⟩⟩

end Shaped

/-! ## Frames are freed -/

section FreeAll

variable {a : Arena} {ss : List Slot}

theorem frame_freeAll_of_live {t : Slot} (h : ((a.freeAll ss).frame t).live) :
    t ∉ ss ∧ (a.freeAll ss).frame t = a.frame t := by
  by_cases ht : t ∈ ss
  · rw [frame_freeAll, if_pos ht] at h
    cases h
  · exact ⟨ht, by rw [frame_freeAll, if_neg ht]⟩

theorem frame_freeAll_of_not_mem {t : Slot} (h : t ∉ ss) :
    (a.freeAll ss).frame t = a.frame t := by
  rw [frame_freeAll, if_neg h]

theorem Shaped.freeAll (ha : a.Shaped) (hnodup : ss.Nodup) (hlive : ∀ s ∈ ss, (a.frame s).live)
    (h0 : globals ∉ ss)
    (hlink : ∀ t outer, (a.frame t).live → t ∉ ss → (a.frame t).enclosing = some outer →
      outer ∉ ss) : (a.freeAll ss).Shaped where
  globals_live := by rw [frame_freeAll_of_not_mem h0]; exact ha.globals_live
  globals_outermost := by rw [frame_freeAll_of_not_mem h0]; exact ha.globals_outermost
  mem_free s := by
    rw [← Array.mem_toList_iff, free_freeAll, List.mem_append, Array.mem_toList_iff, ha.mem_free,
      size_freeAll, frame_freeAll]
    by_cases hs : s ∈ ss
    · simp [hs, lt_size_of_live (hlive s hs)]
    · simp [hs]
  free_nodup := by
    rw [free_freeAll, List.nodup_append]
    refine ⟨ha.free_nodup, hnodup, fun s hs t ht e => ?_⟩
    exact ((ha.mem_free s).mp (Array.mem_toList_iff.mp hs)).2 (e ▸ hlive t ht)
  empty {s} h := by
    rw [frame_freeAll] at h ⊢
    split_ifs at h ⊢
    · rfl
    · exact ha.empty h
  outward {s} h := by
    obtain ⟨hs, e⟩ := frame_freeAll_of_live h
    rw [e] at h
    obtain ⟨path, hp⟩ := ha.outward h
    -- the links lead from frames that stay to frames that stay
    have hpath : ∀ t ∈ path, (a.frame t).live ∧ t ∉ ss := by
      refine hp.subset_of_closed ⟨h, hs⟩ fun t outer ht he => ?_
      exact ⟨ha.live_enclosing ht.1 he, hlink t outer ht.1 ht.2 he⟩
    refine ⟨path, hp.congr fun t ht hl => ?_⟩
    rw [frame_freeAll_of_not_mem (hpath t ht).2]
    exact ⟨hl, rfl⟩

theorem Marked.freeAll (hm : a.Marked) (ha : a.Shaped) (h0 : globals ∉ ss)
    (hlink : ∀ t outer, (a.frame t).live → t ∉ ss → (a.frame t).enclosing = some outer →
      outer ∉ ss) : (a.freeAll ss).Marked where
  globals_active := by rw [frame_freeAll_of_not_mem h0]; exact hm.globals_active
  globals_captured := by rw [frame_freeAll_of_not_mem h0]; exact hm.globals_captured
  active_or_captured {s} h := by
    obtain ⟨-, e⟩ := frame_freeAll_of_live h
    rw [e] at h ⊢
    exact hm.active_or_captured h
  captured_enclosing {s outer} h he := by
    by_cases hs : s ∈ ss
    · rw [frame_freeAll, if_pos hs] at h
      cases h
    · rw [frame_freeAll_of_not_mem hs] at h he
      rw [frame_freeAll_of_not_mem (hlink s outer (ha.live_of_captured h) hs he)]
      exact hm.captured_enclosing h he

end FreeAll

/-! ## Frames are placed -/

section Place

variable {a : Arena} (ha : a.Shaped) {env : Slot}
include ha

/-- A frame never takes the slot of a live one. -/
theorem Shaped.not_live_place (fr : Frame) : ¬ (a.frame (a.place fr).1).live := by
  intro h
  rcases place_fst_free_or_new a fr with hf | hn
  · exact ((ha.mem_free _).mp hf).2 h
  · exact Nat.not_lt.mpr hn (lt_size_of_live h)

theorem Shaped.ne_place (fr : Frame) {t : Slot} (h : (a.frame t).live) : t ≠ (a.place fr).1 :=
  fun e => ha.not_live_place fr (e ▸ h)

theorem Shaped.frame_place_self (fr : Frame) : (a.place fr).2.frame (a.place fr).1 = fr := by
  rw [frame_place ha.free_lt_size, if_pos rfl]

theorem Shaped.frame_place_of_ne (fr : Frame) {t : Slot} (h : t ≠ (a.place fr).1) :
    (a.place fr).2.frame t = a.frame t := by
  rw [frame_place ha.free_lt_size, if_neg h]

theorem Shaped.frame_place_of_live (fr : Frame) {t : Slot} (h : (a.frame t).live) :
    (a.place fr).2.frame t = a.frame t :=
  ha.frame_place_of_ne fr (ha.ne_place fr h)

theorem Shaped.place (henv : (a.frame env).live) : (a.place (fresh env)).2.Shaped where
  globals_live := by rw [ha.frame_place_of_live _ ha.globals_live]; exact ha.globals_live
  globals_outermost := by rw [ha.frame_place_of_live _ ha.globals_live]; exact ha.globals_outermost
  mem_free t := by
    rw [lt_size_place ha.free_lt_size]
    by_cases ht : t = (a.place (fresh env)).1
    · have hnot : t ∉ (a.place (fresh env)).2.free := fun h =>
        ((free_place ha.free_nodup (fresh env)).2 t h).2 ht
      simp only [hnot, false_iff, not_and, not_not]
      intro _
      rw [ht, ha.frame_place_self]
      rfl
    · rw [ha.frame_place_of_ne _ ht]
      simp only [ht, or_false]
      rw [← ha.mem_free]
      exact ⟨fun h => ((free_place ha.free_nodup (fresh env)).2 t h).1,
        fun h => mem_free_place h ht⟩
  free_nodup := (free_place ha.free_nodup (fresh env)).1
  empty {t} h := by
    by_cases ht : t = (a.place (fresh env)).1
    · rw [ht, ha.frame_place_self] at h
      exact absurd rfl h
    · rw [ha.frame_place_of_ne _ ht] at h ⊢
      exact ha.empty h
  outward {t} h := by
    have hcongr : ∀ {u path}, a.Outward u path → (a.place (fresh env)).2.Outward u path :=
      fun hp => hp.congr fun v _ hl => by
        rw [ha.frame_place_of_live _ hl]
        exact ⟨hl, rfl⟩
    by_cases ht : t = (a.place (fresh env)).1
    · obtain ⟨path, hp⟩ := ha.outward henv
      refine ⟨t :: path, .link h ?_ (hcongr hp) fun hmem => ?_⟩
      · rw [ht, ha.frame_place_self]
        rfl
      · exact ha.ne_place _ (hp.live ha.globals_live hmem) ht
    · rw [ha.frame_place_of_ne _ ht] at h
      obtain ⟨path, hp⟩ := ha.outward h
      exact ⟨path, hcongr hp⟩

theorem Marked.place (hm : a.Marked) : (a.place (fresh env)).2.Marked where
  globals_active := by rw [ha.frame_place_of_live _ ha.globals_live]; exact hm.globals_active
  globals_captured := by rw [ha.frame_place_of_live _ ha.globals_live]; exact hm.globals_captured
  active_or_captured {t} h := by
    by_cases ht : t = (a.place (fresh env)).1
    · rw [ht, ha.frame_place_self]
      exact .inl rfl
    · rw [ha.frame_place_of_ne _ ht] at h ⊢
      exact hm.active_or_captured h
  captured_enclosing {t outer} h he := by
    by_cases ht : t = (a.place (fresh env)).1
    · rw [ht, ha.frame_place_self] at h
      cases h
    · rw [ha.frame_place_of_ne _ ht] at h he
      have hl := ha.live_enclosing (ha.live_of_captured h) he
      rw [ha.frame_place_of_live _ hl]
      exact hm.captured_enclosing h he

end Place

/-! ## Marks change -/

section Marks

variable {a b : Arena} {s : Slot}

theorem Marked.congr (hm : a.Marked)
    (hframe : ∀ t, (b.frame t).live = (a.frame t).live ∧ (b.frame t).active = (a.frame t).active ∧
      (b.frame t).captured = (a.frame t).captured ∧
      (b.frame t).enclosing = (a.frame t).enclosing) : b.Marked where
  globals_active := by rw [(hframe _).2.1]; exact hm.globals_active
  globals_captured := by rw [(hframe _).2.2.1]; exact hm.globals_captured
  active_or_captured {t} h := by
    rw [(hframe t).1] at h
    rw [(hframe t).2.1, (hframe t).2.2.1]
    exact hm.active_or_captured h
  captured_enclosing {t outer} h he := by
    rw [(hframe t).2.2.1] at h
    rw [(hframe t).2.2.2] at he
    rw [(hframe outer).2.2.1]
    exact hm.captured_enclosing h he

/-- **A capture marks the frames on the way outward and does nothing else.** -/
theorem Shaped.frame_capture (ha : a.Shaped) (hm : a.Marked) {path : List Slot}
    (hp : a.Outward s path) (t : Slot) :
    (a.capture s).frame t =
      { a.frame t with captured := (a.frame t).captured || decide (t ∈ path) } := by
  obtain ⟨mark, hmark⟩ := frame_captureFrom a a.frames.size s t
  have hc := captured_captureFrom hp (hp.length_le ha.globals_live)
    (fun _ ht => hp.live ha.globals_live ht) (fun _ _ _ => hm.captured_enclosing)
    ha.globals_outermost t
  rw [hmark] at hc
  rw [capture, hmark, ← hc]

theorem Shaped.capture (ha : a.Shaped) (hm : a.Marked) (hs : (a.frame s).live) :
    (a.capture s).Shaped := by
  obtain ⟨path, hp⟩ := ha.outward hs
  refine ha.congr (by simp) (by simp) (by simp) (by simp) fun t ht => ?_
  have hmem : t ∉ path := fun h => ht (hp.live ha.globals_live h)
  rw [ha.frame_capture hm hp]
  simp [hmem]

theorem Marked.capture (hm : a.Marked) (ha : a.Shaped) (hs : (a.frame s).live) :
    (a.capture s).Marked := by
  obtain ⟨path, hp⟩ := ha.outward hs
  have hc : ∀ t, ((a.capture s).frame t).captured = ((a.frame t).captured || decide (t ∈ path)) :=
    fun t => by rw [ha.frame_capture hm hp]
  exact {
    globals_active := by rw [active_capture]; exact hm.globals_active
    globals_captured := by rw [hc, hm.globals_captured]; rfl
    active_or_captured := fun {t} h => by
      rw [live_capture] at h
      rw [active_capture, hc]
      exact (hm.active_or_captured h).imp id fun h => by rw [h]; rfl
    captured_enclosing := fun {t outer} h he => by
      rw [enclosing_capture] at he
      rw [hc, Bool.or_eq_true, decide_eq_true_eq] at h ⊢
      exact h.imp (hm.captured_enclosing · he) (hp.enclosing_mem ha.globals_outermost · he) }

theorem frame_deactivate (hs : (a.frame s).live) (t : Slot) :
    (a.modify s fun fr => { fr with active := false }).frame t =
      { a.frame t with active := (a.frame t).active && decide (t ≠ s) } := by
  by_cases ht : t = s
  · subst ht
    rw [frame_modify_self _ hs]
    simp
  · rw [frame_modify_of_ne _ ht]
    simp [ht]

theorem active_release (hs : (a.frame s).live) (t : Slot) :
    ((a.release s).frame t).active = ((a.frame t).active && decide (t ≠ s)) := by
  unfold release
  split_ifs
  · rw [frame_deactivate hs]
  · rw [frame_freeSlot]
    by_cases ht : t = s <;> simp [ht]

theorem frame_release_of_ne {t : Slot} (ht : t ≠ s) : (a.release s).frame t = a.frame t := by
  unfold release
  split_ifs
  · exact frame_modify_of_ne _ ht
  · rw [frame_freeSlot, if_neg ht]

theorem frame_release_of_live (hs : (a.frame s).live) {t : Slot}
    (ht : ((a.release s).frame t).live) :
    (a.frame t).live ∧ ((a.release s).frame t).bindings = (a.frame t).bindings ∧
      ((a.release s).frame t).enclosing = (a.frame t).enclosing := by
  unfold release at ht ⊢
  split_ifs at ht ⊢
  · rw [frame_deactivate hs] at ht ⊢
    exact ⟨ht, rfl, rfl⟩
  · obtain ⟨-, e⟩ := frame_freeAll_of_live (show ((a.freeAll [s]).frame t).live from ht)
    change (a.freeSlot s).frame t = a.frame t at e
    rw [e] at ht ⊢
    exact ⟨ht, rfl, rfl⟩

end Marks

end Arena

end Scriptlet
