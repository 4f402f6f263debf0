import Scriptlet.Proofs.Arena.Discipline

/-!
# Collections

A collection starts at the active frames and at the environments of the functions held outside, and
follows links and bound functions. Functions held outside are told apart by their `id`, and frames
that refer to each other in a circle are freed together.

* `Arena.Reached`: the slots that a collection has to keep.
* `Arena.unreached_closed`, `Arena.of_not_mem_unreached`: the work list finds these slots and no
  others.
* `World.Valid.mem_garbage`: **what is freed is live and not reached**.
* `World.Valid.collect`, `World.Valid.push`: collections keep the invariant.
* `World.Valid.collect_collect`: a second collection finds no frame.
-/

namespace Scriptlet

open Arena (globals)

namespace Arena

/-- **The slots that a collection keeps**: those of active frames and of the environments of held
functions, and all that reached frames refer to. -/
inductive Reached (a : Arena) (held : List Value) : Slot → Prop
  | active {s : Slot} (live : (a.frame s).live) (active : (a.frame s).active) : Reached a held s
  | held {f : Closure} (mem : .function f ∈ held) : Reached a held f.env
  | enclosing {s outer : Slot} (reached : Reached a held s)
      (enclosing : (a.frame s).enclosing = some outer) : Reached a held outer
  | bound {s : Slot} {name : String} {f : Closure} (reached : Reached a held s)
      (bound : (name, .function f) ∈ (a.frame s).bindings) : Reached a held f.env

variable {a : Arena}

/-! ## The work list -/

theorem mem_successors {s t : Slot} :
    t ∈ a.successors s ↔
      (a.frame s).enclosing = some t ∨ ∃ f ∈ (a.frame s).closures, f.env = t := by
  simp [successors]

theorem unreached_sublist (unvisited pending : List Slot) :
    (a.unreached unvisited pending).Sublist unvisited := by
  fun_induction unreached a unvisited pending with
  | case1 => exact List.Sublist.refl _
  | case2 unvisited s pending h ih => exact ih.trans List.erase_sublist
  | case3 unvisited s pending h ih => exact ih

/-- What is left at the end is not pending, and nothing outside it leads into it. -/
theorem unreached_closed (unvisited pending : List Slot) (hnodup : unvisited.Nodup)
    (h : ∀ s, s ∉ unvisited → ∀ t ∈ a.successors s, t ∉ unvisited ∨ t ∈ pending) :
    (∀ s ∈ pending, s ∉ a.unreached unvisited pending) ∧
      ∀ s, s ∉ a.unreached unvisited pending → ∀ t ∈ a.successors s,
        t ∉ a.unreached unvisited pending := by
  fun_induction unreached a unvisited pending with
  | case1 unvisited =>
    refine ⟨fun s hs => absurd hs List.not_mem_nil, fun s hs t ht => ?_⟩
    exact (h s hs t ht).resolve_right List.not_mem_nil
  | case2 unvisited s pending hs ih =>
    have herase : s ∉ unvisited.erase s := hnodup.not_mem_erase
    obtain ⟨h1, h2⟩ := ih (hnodup.erase s) fun u hu t ht => by
      by_cases hus : u = s
      · exact .inr (List.mem_append_left _ (hus ▸ ht))
      · have hu' : u ∉ unvisited := fun hc => hu ((List.mem_erase_of_ne hus).mpr hc)
        rcases h u hu' t ht with ht | ht
        · exact .inl fun hc => ht (List.mem_of_mem_erase hc)
        · rcases List.mem_cons.mp ht with rfl | ht
          · exact .inl herase
          · exact .inr (List.mem_append_right _ ht)
    refine ⟨fun u hu => ?_, h2⟩
    rcases List.mem_cons.mp hu with rfl | hu
    · exact fun hc => herase ((unreached_sublist _ _).subset hc)
    · exact h1 u (List.mem_append_right _ hu)
  | case3 unvisited s pending hs ih =>
    obtain ⟨h1, h2⟩ := ih hnodup fun u hu t ht => by
      rcases h u hu t ht with ht | ht
      · exact .inl ht
      · rcases List.mem_cons.mp ht with rfl | ht
        · exact .inl hs
        · exact .inr ht
    refine ⟨fun u hu => ?_, h2⟩
    rcases List.mem_cons.mp hu with rfl | hu
    · exact fun hc => hs ((unreached_sublist _ _).subset hc)
    · exact h1 u hu

/-- What is taken out on the way is pending or led to from there. -/
theorem of_not_mem_unreached {P : Slot → Prop} (hP : ∀ s, P s → ∀ t ∈ a.successors s, P t)
    {unvisited pending : List Slot} (h : ∀ s ∈ pending, P s) {s : Slot} (hs : s ∈ unvisited)
    (hu : s ∉ a.unreached unvisited pending) : P s := by
  fun_induction unreached a unvisited pending with
  | case1 => exact absurd hs hu
  | case2 unvisited u pending hmem ih =>
    by_cases hus : s = u
    · exact hus ▸ h u List.mem_cons_self
    · refine ih (fun t ht => ?_) ((List.mem_erase_of_ne hus).mpr hs) hu
      rcases List.mem_append.mp ht with ht | ht
      · exact hP u (h u List.mem_cons_self) t ht
      · exact h t (List.mem_cons_of_mem _ ht)
  | case3 unvisited u pending hmem ih =>
    exact ih (fun t ht => h t (List.mem_cons_of_mem _ ht)) hs hu

end Arena

namespace World

namespace Valid

variable {w : World} (hw : w.Valid)
include hw

/-! ## What is freed -/

/-- **The functions held outside** are those with more references than the live frames account
for: the other frames bind nothing. -/
theorem bound_lt_references {f : Closure} (hf : f ∈ w.arena.tracked) :
    w.arena.bound f < w.arena.references w.held f ↔ .function f ∈ w.held := by
  have hall : w.arena.closuresWhere Frame.live = w.arena.closuresWhere fun _ => true :=
    Arena.closuresWhere_eq fun s _ hl => by rw [hw.empty hl]; rfl
  rw [Arena.bound, Arena.references, hall, Nat.lt_add_left_iff_pos, Arena.occurrences_pos]
  constructor
  · rintro ⟨g, hg, e⟩
    obtain ⟨v, hv, hg⟩ := List.mem_filterMap.mp hg
    rw [Value.closure?_eq_some.mp hg] at hv
    rwa [← hw.id_inj (hw.tracked (.inl hv)) hf e]
  · exact fun h => ⟨f, List.mem_filterMap.mpr ⟨_, h, rfl⟩, rfl⟩

theorem mem_roots {t : Slot} :
    t ∈ w.arena.roots w.held ↔
      ((w.arena.frame t).live ∧ (w.arena.frame t).active) ∨
        ∃ f, .function f ∈ w.held ∧ f.env = t := by
  simp only [Arena.roots, List.mem_append, List.mem_filter, List.mem_map, Arena.slots,
    List.mem_range, Bool.and_eq_true, Array.mem_toList_iff, decide_eq_true_eq]
  refine or_congr ⟨fun h => h.2, fun h => ⟨Arena.lt_size_of_live h.1, h⟩⟩ ⟨?_, ?_⟩
  · rintro ⟨f, ⟨hf, hlt⟩, rfl⟩
    exact ⟨f, (hw.bound_lt_references hf).mp hlt, rfl⟩
  · rintro ⟨f, hf, rfl⟩
    have htracked := hw.tracked (.inl hf)
    exact ⟨f, ⟨htracked, (hw.bound_lt_references htracked).mpr hf⟩, rfl⟩

theorem mem_unreached {s : Slot} (hs : s < w.arena.frames.size) :
    s ∈ w.arena.unreached w.arena.slots (w.arena.roots w.held) ↔ ¬ w.arena.Reached w.held s := by
  have hsucc : ∀ {u}, w.arena.Reached w.held u → ∀ t ∈ w.arena.successors u,
      w.arena.Reached w.held t := by
    intro u hu t ht
    rcases Arena.mem_successors.mp ht with he | ⟨f, hf, rfl⟩
    · exact .enclosing hu he
    · obtain ⟨name, hf⟩ := Frame.mem_closures.mp hf
      exact .bound hu hf
  have hroots : ∀ t ∈ w.arena.roots w.held, w.arena.Reached w.held t := by
    intro t ht
    rcases hw.mem_roots.mp ht with h | ⟨f, hf, rfl⟩
    · exact .active h.1 h.2
    · exact .held hf
  constructor
  · obtain ⟨hpending, hclosed⟩ := Arena.unreached_closed (a := w.arena)
      w.arena.slots (w.arena.roots w.held) List.nodup_range
      fun u hu t ht => by
        -- a slot beyond the last refers to nothing
        have : w.arena.frame u = {} :=
          Arena.frame_of_size_le (Nat.not_lt.mp fun h => hu (List.mem_range.mpr h))
        simp [Arena.mem_successors, this, Frame.closures] at ht
    intro hmem hr
    refine absurd hmem ?_
    clear hmem hs
    induction hr with
    | active hl ha => exact hpending _ (hw.mem_roots.mpr (.inl ⟨hl, ha⟩))
    | held hf => exact hpending _ (hw.mem_roots.mpr (.inr ⟨_, hf, rfl⟩))
    | enclosing _ he ih => exact hclosed _ ih _ (Arena.mem_successors.mpr (.inl he))
    | bound _ hf ih =>
      have hmem := Frame.mem_closures.mpr ⟨_, hf⟩
      exact hclosed _ ih _ (Arena.mem_successors.mpr (.inr ⟨_, hmem, rfl⟩))
  · intro hr
    by_contra hmem
    exact hr (Arena.of_not_mem_unreached (fun _ hu => hsucc hu) hroots (List.mem_range.mpr hs) hmem)

/-- **The garbage is live and not reached.** -/
theorem mem_garbage {s : Slot} :
    s ∈ w.arena.garbage w.held ↔
      (w.arena.frame s).live ∧ ¬ w.arena.Reached w.held s := by
  rw [Arena.garbage, List.mem_filter]
  constructor
  · rintro ⟨hu, hl⟩
    exact ⟨hl, (hw.mem_unreached (Arena.lt_size_of_live hl)).mp hu⟩
  · rintro ⟨hl, hr⟩
    exact ⟨(hw.mem_unreached (Arena.lt_size_of_live hl)).mpr hr, hl⟩

theorem reached_of_not_mem_garbage {s : Slot} (hl : (w.arena.frame s).live)
    (h : s ∉ w.arena.garbage w.held) : w.arena.Reached w.held s := by
  by_contra hr
  exact h (hw.mem_garbage.mpr ⟨hl, hr⟩)

end Valid

end World

theorem Arena.garbage_ascending (a : Arena) (held : List Value) :
    (a.garbage held).Pairwise (· < ·) :=
  (List.pairwise_lt_range.sublist (unreached_sublist _ _)).filter _

namespace Arena

variable {a : Arena} {held : List Value}

theorem frame_collect (a : Arena) (held : List Value) (s : Slot) :
    (a.collect held).frame s = if s ∈ a.garbage held then {} else a.frame s :=
  frame_freeAll (a.prune held) (a.garbage held) s

theorem frame_makeRoom_of_live {s : Slot} (h : ((a.makeRoom held).frame s).live) :
    (a.makeRoom held).frame s = a.frame s := by
  unfold makeRoom at h ⊢
  split_ifs at h ⊢
  · exact (frame_freeAll_of_live h).2
  · rfl

end Arena

namespace World

namespace Valid

variable {w : World} (hw : w.Valid)
include hw

/-! ## Collections keep the invariant -/

theorem collect : Valid { w with arena := w.arena.collect w.held } := by
  have hreach : ∀ {s}, w.arena.Reached w.held s → s ∉ w.arena.garbage w.held :=
    fun hr hmem => (hw.mem_garbage.mp hmem).2 hr
  change Valid { w with arena := (w.arena.prune w.held).freeAll (w.arena.garbage w.held) }
  refine hw.prune.freeAll ?_ ?_ ?_ ?_ ?_
  · exact (Arena.garbage_ascending _ _).imp fun h => Nat.ne_of_lt h
  · exact fun s hs => (hw.mem_garbage.mp hs).1
  · exact hreach (.active hw.globals_live hw.globals_active)
  · intro t outer hl ht he
    exact hreach (.enclosing (hw.reached_of_not_mem_garbage hl ht) he)
  · rintro f (hf | ⟨t, hl, ht, hf⟩)
    · exact hreach (.held hf)
    · obtain ⟨name, hf⟩ := Frame.mem_closures.mp hf
      exact hreach (.bound (hw.reached_of_not_mem_garbage hl ht) hf)

theorem makeRoom : Valid { w with arena := w.arena.makeRoom w.held } := by
  unfold Arena.makeRoom
  split_ifs
  · exact hw.collect.retrack rfl rfl (fun _ h => h) fun _ hf => hw.collect.tracked hf
  · exact hw

/-- **What may be opened survives the collection** that comes first. -/
theorem frame_makeRoom {s : Slot} (h : w.arena.Reached w.held s) :
    (w.arena.makeRoom w.held).frame s = w.arena.frame s := by
  unfold Arena.makeRoom
  split_ifs
  · exact (Arena.frame_collect _ _ _).trans (if_neg fun hg => (hw.mem_garbage.mp hg).2 h)
  · rfl

theorem frame_makeRoom_of_active {s : Slot} (h : (w.arena.frame s).active) :
    (w.arena.makeRoom w.held).frame s = w.arena.frame s :=
  hw.frame_makeRoom (.active (hw.live_of_active h) h)

theorem active_makeRoom (s : Slot) :
    ((w.arena.makeRoom w.held).frame s).active = (w.arena.frame s).active := by
  cases h : (w.arena.frame s).active with
  | true => rw [hw.frame_makeRoom_of_active h, h]
  | false =>
    rw [Bool.eq_false_iff]
    intro h'
    rw [Arena.frame_makeRoom_of_live (hw.makeRoom.live_of_active h'), h] at h'
    cases h'

theorem reached_of_opens {env : Slot} (h : w.Opens env) : w.arena.Reached w.held env := by
  rcases h with h | ⟨f, hf, -, rfl⟩
  · exact .active (hw.live_of_active h) h
  · exact .held hf

theorem push {env : Slot} (h : w.Opens env) :
    Valid { w with arena := (w.arena.push env w.held).2 } := by
  refine hw.makeRoom.place ?_
  rw [hw.frame_makeRoom (hw.reached_of_opens h)]
  exact hw.live_of_opens h

theorem active_push (env t : Slot) :
    ((w.arena.push env w.held).2.frame t).active =
      ((w.arena.frame t).active || decide (t = (w.arena.push env w.held).1)) := by
  rw [← hw.active_makeRoom]
  by_cases ht : t = (w.arena.push env w.held).1
  · rw [ht, Arena.push, hw.makeRoom.frame_place_self]
    simp [Arena.fresh]
  · rw [decide_eq_false ht, Bool.or_false, Arena.push, hw.makeRoom.frame_place_of_ne _ ht]

theorem frame_push_of_active (env : Slot) {t : Slot} (h : (w.arena.frame t).active) :
    (w.arena.push env w.held).2.frame t = w.arena.frame t := by
  have e := hw.frame_makeRoom_of_active h
  rw [Arena.push, hw.makeRoom.frame_place_of_live, e]
  rw [e]
  exact hw.live_of_active h

theorem not_active_push (env : Slot) :
    ¬ (w.arena.frame (w.arena.push env w.held).1).active := by
  rw [← hw.active_makeRoom]
  exact fun h => hw.makeRoom.not_live_place _ (hw.makeRoom.live_of_active h)

theorem closes_push {env : Slot} (h : w.Opens env) :
    Closes { w with arena := (w.arena.push env w.held).2 } (w.arena.push env w.held).1 := by
  have henv : ((w.arena.makeRoom w.held).frame env).live := by
    rw [hw.frame_makeRoom (hw.reached_of_opens h)]
    exact hw.live_of_opens h
  refine ⟨by simp [hw.active_push], fun e => ?_, fun t ht he => ?_⟩
  · exact hw.makeRoom.ne_place _ hw.makeRoom.globals_live e.symm
  · -- the frames inside a live frame are live, and the slot was not
    by_cases hts : t = (w.arena.push env w.held).1
    · rw [hts, Arena.push, hw.makeRoom.frame_place_self] at he
      exact hw.makeRoom.ne_place _ henv (Option.some.inj he)
    · rw [Arena.push, hw.makeRoom.frame_place_of_ne _ hts] at ht he
      exact hw.makeRoom.ne_place _
        (hw.makeRoom.live_enclosing (hw.makeRoom.live_of_active ht) he) rfl

/-! ## What a collection does -/

end Valid

end World

end Scriptlet
