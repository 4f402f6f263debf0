import Mathlib.Data.List.Nodup
import Mathlib.Tactic.Common
import Scriptlet.Arena.Collect

/-!
# Frames under change

What each operation on an arena does to the frame in every slot. The theory of arenas rests on
these equations and opens none of the operations again.

* `Bindings.lookup_insert`: the last value that a name was bound to counts.
* `Arena.frame_modify`, `Arena.frame_freeAll`, `Arena.frame_place`: **the frame in each slot after a
  change**; `Arena.get?_define`: the value of each name after a definition.
* `Arena.Outward`: the slots on the way from a frame out to the globals.
* `Arena.frame_capture`: a capture marks the frames on that way.
-/

namespace Scriptlet

/-! ## Bindings -/

namespace Bindings

theorem lookup_insert (b : Bindings) (name m : String) (v : Value) :
    (b.insert name v).lookup m = if m = name then some v else b.lookup m := by
  induction b with
  | nil =>
    by_cases hm : m = name
    · simp [insert, hm]
    · simp [insert, List.lookup_cons, beq_eq_false_iff_ne.mpr hm, hm]
  | cons p b ih =>
    obtain ⟨n, u⟩ := p
    by_cases hm : m = n
    · subst hm
      by_cases hn : m = name <;> simp [insert, hn]
    · have hb : (m == n) = false := beq_eq_false_iff_ne.mpr hm
      by_cases hn : n = name
      · subst hn
        simp [insert, List.lookup_cons, hb, hm]
      · simp [insert, hn, List.lookup_cons, hb, ih]

theorem mem_insert {b : Bindings} {name m : String} {v u : Value}
    (h : (m, u) ∈ b.insert name v) : u = v ∨ (m, u) ∈ b := by
  induction b with
  | nil =>
    simp only [insert, List.mem_singleton, Prod.mk.injEq] at h
    exact .inl h.2
  | cons p b ih =>
    obtain ⟨n, w⟩ := p
    simp only [insert] at h
    split_ifs at h with hn
    · rcases List.mem_cons.mp h with h | h
      · exact .inl (Prod.mk.inj h).2
      · exact .inr (List.mem_cons_of_mem _ h)
    · rcases List.mem_cons.mp h with h | h
      · exact .inr (h ▸ List.mem_cons_self)
      · exact (ih h).imp id (List.mem_cons_of_mem _)

theorem mem_of_lookup {b : Bindings} {name : String} {v : Value} (h : b.lookup name = some v) :
    (name, v) ∈ b := by
  induction b with
  | nil => cases h
  | cons p b ih =>
    obtain ⟨n, u⟩ := p
    by_cases hn : name = n
    · subst hn
      simp only [List.lookup_cons, beq_self_eq_true, Option.some.injEq] at h
      exact h ▸ List.mem_cons_self
    · rw [List.lookup_cons, beq_eq_false_iff_ne.mpr hn] at h
      exact List.mem_cons_of_mem _ (ih h)

end Bindings

theorem Value.closure?_eq_some {v : Value} {f : Closure} :
    v.closure? = some f ↔ v = .function f := by
  cases v <;> simp [Value.closure?]

theorem Frame.mem_closures {fr : Frame} {f : Closure} :
    f ∈ fr.closures ↔ ∃ name, (name, Value.function f) ∈ fr.bindings := by
  simp [Frame.closures, Value.closure?_eq_some]

theorem Frame.closures_insert {fr : Frame} {f : Closure} {name : String} {v : Value}
    (h : f ∈ Frame.closures { fr with bindings := fr.bindings.insert name v }) :
    v = .function f ∨ f ∈ fr.closures := by
  obtain ⟨m, hm⟩ := Frame.mem_closures.mp h
  rcases Bindings.mem_insert hm with rfl | hm
  · exact .inl rfl
  · exact .inr (Frame.mem_closures.mpr ⟨m, hm⟩)

namespace Arena

variable {a : Arena} {s t : Slot}

/-! ## Slots -/

theorem frame_of_size_le (h : a.frames.size ≤ s) : a.frame s = {} := by
  simp [frame, Array.getD, Nat.not_lt.mpr h]

theorem lt_size_of_live (h : (a.frame s).live) : s < a.frames.size := by
  by_contra hs
  rw [frame_of_size_le (Nat.not_lt.mp hs)] at h
  cases h

/-! ## One frame changes -/

@[simp] theorem size_modify (a : Arena) (s : Slot) (g : Frame → Frame) :
    (a.modify s g).frames.size = a.frames.size := by
  simp [modify]

@[simp] theorem free_modify (a : Arena) (s : Slot) (g : Frame → Frame) :
    (a.modify s g).free = a.free := rfl

@[simp] theorem tracked_modify (a : Arena) (s : Slot) (g : Frame → Frame) :
    (a.modify s g).tracked = a.tracked := rfl

theorem frame_modify (a : Arena) (s t : Slot) (g : Frame → Frame) :
    (a.modify s g).frame t = if t = s ∧ s < a.frames.size then g (a.frame s) else a.frame t := by
  by_cases ht : t < a.frames.size
  · by_cases hts : t = s
    · subst hts
      simp [frame, modify, Array.getD, ht, Array.getElem_modify]
    · simp [frame, modify, Array.getD, ht, Array.getElem_modify, hts, Ne.symm hts]
  · rw [frame_of_size_le (a := a.modify s g) (by simpa using ht),
      if_neg (fun hc : t = s ∧ _ => ht (hc.1 ▸ hc.2)), frame_of_size_le (Nat.not_lt.mp ht)]

theorem frame_modify_of_ne (g : Frame → Frame) (h : t ≠ s) :
    (a.modify s g).frame t = a.frame t := by
  rw [frame_modify, if_neg (fun hc => h hc.1)]

theorem frame_modify_self (g : Frame → Frame) (h : (a.frame s).live) :
    (a.modify s g).frame s = g (a.frame s) := by
  rw [frame_modify, if_pos ⟨rfl, lt_size_of_live h⟩]

theorem frame_define_self {name : String} {v : Value} (h : (a.frame s).live) :
    (a.define s name v).frame s =
      { a.frame s with bindings := (a.frame s).bindings.insert name v } :=
  frame_modify_self _ h

theorem frame_define_of_ne {name : String} {v : Value} (h : t ≠ s) :
    (a.define s name v).frame t = a.frame t :=
  frame_modify_of_ne _ h

@[simp] theorem live_define (a : Arena) (s : Slot) (name : String) (v : Value) (t : Slot) :
    ((a.define s name v).frame t).live = (a.frame t).live := by
  rw [define, frame_modify]; split_ifs with h <;> simp [h]

@[simp] theorem active_define (a : Arena) (s : Slot) (name : String) (v : Value) (t : Slot) :
    ((a.define s name v).frame t).active = (a.frame t).active := by
  rw [define, frame_modify]; split_ifs with h <;> simp [h]

@[simp] theorem captured_define (a : Arena) (s : Slot) (name : String) (v : Value) (t : Slot) :
    ((a.define s name v).frame t).captured = (a.frame t).captured := by
  rw [define, frame_modify]; split_ifs with h <;> simp [h]

@[simp] theorem enclosing_define (a : Arena) (s : Slot) (name : String) (v : Value) (t : Slot) :
    ((a.define s name v).frame t).enclosing = (a.frame t).enclosing := by
  rw [define, frame_modify]; split_ifs with h <;> simp [h]

@[simp] theorem size_define (a : Arena) (s : Slot) (name : String) (v : Value) :
    (a.define s name v).frames.size = a.frames.size := size_modify _ _ _

theorem lt_size_of_get? {x : String} (h : (a.get? s x).isSome) : s < a.frames.size := by
  by_contra hs
  rw [get?, frame_of_size_le (Nat.not_lt.mp hs)] at h
  cases h

theorem get?_define (a : Arena) (s t : Slot) (x y : String) (v : Value) :
    (a.define s x v).get? t y =
      if t = s ∧ y = x ∧ s < a.frames.size then some v else a.get? t y := by
  rw [get?, define, frame_modify, get?]
  by_cases hts : t = s ∧ s < a.frames.size
  · rw [if_pos hts]
    simp only [Bindings.lookup_insert, hts.1, hts.2]
    by_cases hy : y = x <;> simp [hy]
  · rw [if_neg hts, if_neg fun h => hts ⟨h.1, h.2.2⟩]

theorem get?_define_self (hs : s < a.frames.size) (x : String) (v : Value) :
    (a.define s x v).get? s x = some v := by
  rw [get?_define, if_pos ⟨rfl, rfl, hs⟩]

theorem isSome_get?_define {x : String} (h : (a.get? t x).isSome) (v : Value) (s : Slot) (y : String) :
    ((a.define t x v).get? s y).isSome = (a.get? s y).isSome := by
  rw [get?_define]
  split_ifs with hs
  · obtain ⟨rfl, rfl, -⟩ := hs
    exact h.symm
  · rfl

theorem ancestor?_define (a : Arena) (t : Slot) (x : String) (v : Value) (env : Slot) (d : Nat) :
    (a.define t x v).ancestor? env d = a.ancestor? env d := by
  induction d generalizing env with
  | zero => rfl
  | succ d ih => simp only [ancestor?, enclosing_define, ih]

theorem find?_define {x : String} (h : (a.get? t x).isSome) (v : Value) (env : Slot) (y : String) :
    (a.define t x v).find? env y = a.find? env y := by
  have hfrom : ∀ n s, (a.define t x v).findFrom y n s = a.findFrom y n s := by
    intro n
    induction n with
    | zero => exact fun _ => rfl
    | succ n ih => intro s; simp only [findFrom, isSome_get?_define h, enclosing_define, ih]
  rw [find?, size_define, hfrom]
  rfl

theorem isSome_get?_of_findFrom {name : String} {n : Nat} (h : a.findFrom name n s = some t) :
    (a.get? t name).isSome := by
  induction n generalizing s with
  | zero => cases h
  | succ n ih =>
    simp only [findFrom] at h
    split_ifs at h with hs
    · cases h
      exact hs
    · split at h
      · cases h
      · exact ih h

/-- Assignment is a definition in a frame that binds the name already. -/
theorem define_of_assign? {name : String} {v : Value} {b : Arena}
    (h : a.assign? s name v = some b) :
    ∃ t, (a.get? t name).isSome ∧ b = a.define t name v := by
  obtain ⟨t, ht, rfl⟩ := Option.map_eq_some_iff.mp h
  exact ⟨t, isSome_get?_of_findFrom ht, rfl⟩

theorem assignAt?_eq (a : Arena) (s : Slot) (distance : Nat) (name : String) (v : Value) :
    a.assignAt? s distance name v =
      ((a.ancestor? s distance).filter fun t => (a.get? t name).isSome).map
        (a.define · name v) := by
  rw [assignAt?]
  cases a.ancestor? s distance with
  | none => rfl
  | some t =>
    simp only [Option.bind_some, set?, Option.filter]
    split_ifs <;> rfl

theorem define_of_assignAt? {distance : Nat} {name : String} {v : Value} {b : Arena}
    (h : a.assignAt? s distance name v = some b) :
    ∃ t, (a.get? t name).isSome ∧ b = a.define t name v := by
  rw [assignAt?_eq] at h
  obtain ⟨t, ht, rfl⟩ := Option.map_eq_some_iff.mp h
  exact ⟨t, (Option.filter_eq_some_iff.mp ht).2, rfl⟩

/-! ## Functions are tracked -/

@[simp] theorem frame_note (a : Arena) (f : Closure) (t : Slot) :
    (a.note f).frame t = a.frame t := rfl

/-- Tracking a function forgets no other function or only dead ones. -/
theorem track_cases (a : Arena) (f : Closure) (held : List Value) :
    a.track f held = a.note f ∨
      ∃ n, a.track f held = { (a.note f).prune held with pruneAt := n } := by
  simp only [track]
  split_ifs
  · exact .inr ⟨_, rfl⟩
  · exact .inl rfl

@[simp] theorem frames_track (a : Arena) (f : Closure) (held : List Value) :
    (a.track f held).frames = a.frames := by
  rcases track_cases a f held with h | ⟨n, h⟩ <;> rw [h] <;> rfl

@[simp] theorem free_track (a : Arena) (f : Closure) (held : List Value) :
    (a.track f held).free = a.free := by
  rcases track_cases a f held with h | ⟨n, h⟩ <;> rw [h] <;> rfl

@[simp] theorem collectAt_track (a : Arena) (f : Closure) (held : List Value) :
    (a.track f held).collectAt = a.collectAt := by
  rcases track_cases a f held with h | ⟨n, h⟩ <;> rw [h] <;> rfl

@[simp] theorem frame_track (a : Arena) (f : Closure) (held : List Value) (t : Slot) :
    (a.track f held).frame t = a.frame t := by
  rw [frame, frames_track, frame]

/-! ## Holders of functions -/

theorem mem_closuresWhere {p : Frame → Bool} {f : Closure} :
    f ∈ a.closuresWhere p ↔
      ∃ s < a.frames.size, p (a.frame s) ∧ f ∈ (a.frame s).closures := by
  simp only [closuresWhere, List.mem_flatMap, List.mem_filter, Array.mem_toList_iff,
    Array.mem_iff_getElem]
  constructor
  · rintro ⟨fr, ⟨⟨s, hs, rfl⟩, hp⟩, hf⟩
    refine ⟨s, hs, ?_⟩
    simpa [frame, Array.getD, hs] using ⟨hp, hf⟩
  · rintro ⟨s, hs, hp, hf⟩
    refine ⟨a.frame s, ⟨⟨s, hs, ?_⟩, hp⟩, hf⟩
    simp [frame, Array.getD, hs]

theorem closuresWhere_eq {p : Frame → Bool}
    (h : ∀ s < a.frames.size, ¬ p (a.frame s) → (a.frame s).closures = []) :
    a.closuresWhere p = a.closuresWhere fun _ => true := by
  have hmem : ∀ fr ∈ a.frames.toList, ¬ p fr → fr.closures = [] := by
    intro fr hfr hp
    obtain ⟨s, hs, rfl⟩ := Array.mem_iff_getElem.mp (Array.mem_toList_iff.mp hfr)
    simpa [frame, Array.getD, hs] using h s hs (by simpa [frame, Array.getD, hs] using hp)
  simp only [closuresWhere]
  generalize a.frames.toList = frs at hmem ⊢
  induction frs with
  | nil => rfl
  | cons fr frs ih =>
    have ih := ih fun x hx => hmem x (List.mem_cons_of_mem _ hx)
    by_cases hp : p fr
    · simpa [hp] using ih
    · simpa [hp, hmem fr List.mem_cons_self hp] using ih

theorem occurrences_pos {f : Closure} {fs : List Closure} :
    0 < occurrences f fs ↔ ∃ g ∈ fs, g.id = f.id := by
  simp [occurrences, List.countP_pos_iff]

theorem frame_freeSlot (a : Arena) (s t : Slot) :
    (a.freeSlot s).frame t = if t = s then {} else a.frame t := by
  change (a.modify s fun _ => {}).frame t = _
  rw [frame_modify]
  by_cases hs : s < a.frames.size
  · simp [hs]
  · rw [if_neg (fun hc => hs hc.2)]
    split_ifs with h
    · rw [h, frame_of_size_le (Nat.not_lt.mp hs)]
    · rfl

/-- Frees slots in order. -/
def freeAll (a : Arena) (ss : List Slot) : Arena := ss.foldl freeSlot a

theorem frame_freeAll (a : Arena) (ss : List Slot) (t : Slot) :
    (a.freeAll ss).frame t = if t ∈ ss then {} else a.frame t := by
  induction ss generalizing a with
  | nil => simp [freeAll]
  | cons s ss ih =>
    change ((a.freeSlot s).freeAll ss).frame t = _
    rw [ih, frame_freeSlot]
    by_cases h : t ∈ ss <;> by_cases hs : t = s <;> simp [h, hs]

theorem size_freeAll (a : Arena) (ss : List Slot) : (a.freeAll ss).frames.size = a.frames.size := by
  induction ss generalizing a with
  | nil => rfl
  | cons s ss ih =>
    change ((a.freeSlot s).freeAll ss).frames.size = _
    rw [ih]
    simp [freeSlot]

theorem free_freeAll (a : Arena) (ss : List Slot) :
    (a.freeAll ss).free.toList = a.free.toList ++ ss := by
  induction ss generalizing a with
  | nil => simp [freeAll]
  | cons s ss ih =>
    change ((a.freeSlot s).freeAll ss).free.toList = _
    rw [ih]
    simp [freeSlot]

theorem tracked_freeAll (a : Arena) (ss : List Slot) : (a.freeAll ss).tracked = a.tracked := by
  induction ss generalizing a with
  | nil => rfl
  | cons s ss ih => exact (ih (a.freeSlot s)).trans rfl

/-! ## Frames are placed -/

/-- A frame goes into the slot freed last, or behind all others if no slot is free. -/
theorem place_cases (a : Arena) (fr : Frame) :
    (∃ s rest, a.free = rest.push s ∧
      a.place fr = (s, { a with frames := a.frames.modify s fun _ => fr, free := rest })) ∨
    (a.free = #[] ∧ a.place fr = a.append fr) := by
  cases hb : a.free.back? with
  | none =>
    refine .inr ⟨Array.back?_eq_none_iff.mp hb, ?_⟩
    simp [place, hb]
  | some s =>
    obtain ⟨rest, hr⟩ := Array.back?_eq_some_iff.mp hb
    exact .inl ⟨s, rest, hr, by simp [place, hr]⟩

theorem frame_append (a : Arena) (fr : Frame) (t : Slot) :
    (a.append fr).2.frame t = if t = a.frames.size then fr else a.frame t := by
  simp only [append, frame, Array.getD, Array.size_push, Array.getInternal_eq_getElem,
    Array.getElem_push]
  rcases Nat.lt_trichotomy t a.frames.size with h | h | h
  · simp [h, Nat.lt_succ_of_lt h, Nat.ne_of_lt h]
  · simp [h]
  · simp [Nat.not_lt.mpr (Nat.le_of_lt h), Nat.not_lt.mpr h, Nat.ne_of_gt h]

theorem frame_place (hfree : ∀ s ∈ a.free, s < a.frames.size) (fr : Frame) (t : Slot) :
    (a.place fr).2.frame t = if t = (a.place fr).1 then fr else a.frame t := by
  rcases place_cases a fr with ⟨s, rest, hr, hp⟩ | ⟨-, hp⟩
  · have hs : s < a.frames.size := hfree s (by simp [hr])
    rw [hp]
    change (a.modify s fun _ => fr).frame t = _
    rw [frame_modify]
    simp [hs]
  · rw [hp]
    exact frame_append a fr t

theorem place_fst_free_or_new (a : Arena) (fr : Frame) :
    (a.place fr).1 ∈ a.free ∨ a.frames.size ≤ (a.place fr).1 := by
  rcases place_cases a fr with ⟨s, rest, hr, hp⟩ | ⟨-, hp⟩
  · exact .inl (by simp [hp, hr])
  · exact .inr (by simp [hp, append])

theorem lt_size_place (hfree : ∀ s ∈ a.free, s < a.frames.size) (fr : Frame) (t : Slot) :
    t < (a.place fr).2.frames.size ↔ t < a.frames.size ∨ t = (a.place fr).1 := by
  rcases place_cases a fr with ⟨s, rest, hr, hp⟩ | ⟨-, hp⟩
  · have hs : s < a.frames.size := hfree s (by simp [hr])
    rw [hp]
    simp only [Array.size_modify]
    exact ⟨.inl, fun h => h.elim id (fun e => e ▸ hs)⟩
  · rw [hp]
    simp only [append, Array.size_push]
    exact Nat.lt_succ_iff_lt_or_eq

theorem tracked_place (a : Arena) (fr : Frame) : (a.place fr).2.tracked = a.tracked := by
  rcases place_cases a fr with ⟨s, rest, -, hp⟩ | ⟨-, hp⟩ <;> rw [hp]
  rfl

theorem free_place (hnodup : a.free.toList.Nodup) (fr : Frame) :
    (a.place fr).2.free.toList.Nodup ∧ ∀ s, s ∈ (a.place fr).2.free → s ∈ a.free ∧
      s ≠ (a.place fr).1 := by
  rcases place_cases a fr with ⟨s, rest, hr, hp⟩ | ⟨he, hp⟩
  · rw [hr, Array.toList_push, List.nodup_append] at hnodup
    obtain ⟨hn, -, hd⟩ := hnodup
    rw [hp]
    refine ⟨hn, fun t ht => ⟨by simp [hr, ht], ?_⟩⟩
    exact hd t (Array.mem_toList_iff.mpr ht) s (List.mem_singleton_self s)
  · rw [hp]
    simp [append, he]

theorem mem_free_place {fr : Frame} (h : s ∈ a.free) (hs : s ≠ (a.place fr).1) :
    s ∈ (a.place fr).2.free := by
  rcases place_cases a fr with ⟨t, rest, hr, hp⟩ | ⟨he, hp⟩
  · rw [hp] at hs ⊢
    simpa [hr, hs] using h
  · simp [he] at h

/-! ## The way outward -/

/-- The slots from a live frame out to the globals, no slot twice. -/
inductive Outward (a : Arena) : Slot → List Slot → Prop
  | arrived : Outward a globals [globals]
  | link {s outer : Slot} {path : List Slot} (live : (a.frame s).live)
      (enclosing : (a.frame s).enclosing = some outer) (rest : Outward a outer path)
      (fresh : s ∉ path) : Outward a s (s :: path)

namespace Outward

variable {b : Arena} {path : List Slot}

theorem nodup (h : a.Outward s path) : path.Nodup := by
  induction h with
  | arrived => exact List.nodup_singleton _
  | link _ _ _ fresh ih => exact List.nodup_cons.mpr ⟨fresh, ih⟩

theorem live (h : a.Outward s path) (h0 : (a.frame globals).live) (ht : t ∈ path) :
    (a.frame t).live := by
  induction h with
  | arrived => exact List.mem_singleton.mp ht ▸ h0
  | link live _ _ _ ih =>
    rcases List.mem_cons.mp ht with rfl | ht
    · exact live
    · exact ih ht

theorem length_le (h : a.Outward s path) (h0 : (a.frame globals).live) :
    path.length ≤ a.frames.size := by
  have hsub : path ⊆ List.range a.frames.size := fun t ht =>
    List.mem_range.mpr (lt_size_of_live (h.live h0 ht))
  simpa using h.nodup.length_le_of_subset hsub

theorem head_mem (h : a.Outward s path) : s ∈ path := by
  cases h <;> exact List.mem_cons_self

theorem congr (h : a.Outward s path)
    (hb : ∀ t ∈ path, (a.frame t).live →
      (b.frame t).live ∧ (b.frame t).enclosing = (a.frame t).enclosing) : b.Outward s path := by
  induction h with
  | arrived => exact .arrived
  | link live enclosing _ fresh ih =>
    obtain ⟨hl, he⟩ := hb _ List.mem_cons_self live
    exact .link hl (he.trans enclosing) (ih fun t ht => hb t (List.mem_cons_of_mem _ ht)) fresh

theorem subset_of_closed (h : a.Outward s path) {P : Slot → Prop} (hs : P s)
    (hP : ∀ t outer, P t → (a.frame t).enclosing = some outer → P outer) : ∀ t ∈ path, P t := by
  induction h with
  | arrived => exact fun t ht => List.mem_singleton.mp ht ▸ hs
  | link _ enclosing _ _ ih =>
    intro t ht
    rcases List.mem_cons.mp ht with rfl | ht
    · exact hs
    · exact ih (hP _ _ hs enclosing) t ht

theorem enclosing_mem (h : a.Outward s path) (h0 : (a.frame globals).enclosing = none)
    {outer : Slot} (ht : t ∈ path) (he : (a.frame t).enclosing = some outer) : outer ∈ path := by
  induction h with
  | arrived =>
    rw [List.mem_singleton.mp ht, h0] at he
    cases he
  | link _ enclosing rest _ ih =>
    rcases List.mem_cons.mp ht with rfl | ht
    · cases he.symm.trans enclosing
      exact List.mem_cons_of_mem _ rest.head_mem
    · exact List.mem_cons_of_mem _ (ih ht)

theorem ancestor? (h : a.Outward s path) (h0 : (a.frame globals).enclosing = none) (d : Nat) :
    a.ancestor? s d = path[d]? := by
  induction h generalizing d with
  | arrived => cases d <;> simp [Arena.ancestor?, h0]
  | link _ enclosing _ _ ih => cases d <;> simp [Arena.ancestor?, enclosing, ih]

theorem getLast? (h : a.Outward s path) : path.getLast? = some globals := by
  induction h with
  | arrived => rfl
  | link _ _ _ _ ih => rw [List.getLast?_cons, ih]; rfl

theorem length_pos (h : a.Outward s path) : 0 < path.length := List.length_pos_of_mem h.head_mem

theorem ancestor?_length (h : a.Outward s path) (h0 : (a.frame globals).enclosing = none) :
    a.ancestor? s (path.length - 1) = some globals := by
  rw [h.ancestor? h0, ← List.getLast?_eq_getElem?, h.getLast?]

theorem ancestor?_inj (h : a.Outward s path) (h0 : (a.frame globals).enclosing = none)
    {i j : Nat} (hi : i ≤ path.length - 1) (he : a.ancestor? s i = a.ancestor? s j) : i = j := by
  rw [h.ancestor? h0, h.ancestor? h0] at he
  exact (List.getElem?_inj (Nat.lt_of_le_pred h.length_pos hi) h.nodup).mp he

theorem findFrom (h : a.Outward s path) (h0 : (a.frame globals).enclosing = none) (name : String)
    {n : Nat} (hn : path.length ≤ n) :
    a.findFrom name n s = path.find? fun t => (a.get? t name).isSome := by
  induction h generalizing n with
  | arrived =>
    obtain ⟨n, rfl⟩ := Nat.exists_eq_succ_of_ne_zero (Nat.ne_of_gt hn)
    simp only [Arena.findFrom, h0, List.find?]
    split_ifs with hg <;> simp [hg]
  | link _ enclosing _ _ ih =>
    obtain ⟨n, rfl⟩ := Nat.exists_eq_succ_of_ne_zero (Nat.ne_of_gt (Nat.zero_lt_of_lt hn))
    simp only [Arena.findFrom, enclosing, List.find?]
    split_ifs with hg
    · simp [hg]
    · simp [hg, ih (Nat.le_of_succ_le_succ hn)]

theorem find? (h : a.Outward s path) (hl : (a.frame globals).live)
    (h0 : (a.frame globals).enclosing = none) (name : String) :
    a.find? s name = path.find? fun t => (a.get? t name).isSome :=
  h.findFrom h0 name (h.length_le hl)

end Outward

/-! ## Capture -/

theorem frame_captureFrom (a : Arena) (n : Nat) (s t : Slot) :
    ∃ mark, (a.captureFrom n s).frame t = { a.frame t with captured := mark } := by
  induction n generalizing a s with
  | zero => exact ⟨_, rfl⟩
  | succ n ih =>
    have hb : ∃ mark, (a.modify s fun fr => { fr with captured := true }).frame t =
        { a.frame t with captured := mark } := by
      rw [frame_modify]
      split_ifs with h
      · exact ⟨true, by rw [h.1]⟩
      · exact ⟨_, rfl⟩
    simp only [captureFrom]
    split_ifs
    · exact ⟨_, rfl⟩
    · split
      · exact hb
      · obtain ⟨m, hm⟩ := hb
        obtain ⟨m', hm'⟩ := ih (a.modify s fun fr => { fr with captured := true }) _
        exact ⟨m', by rw [hm', hm]⟩

theorem captureFrom_rest (a : Arena) (n : Nat) (s : Slot) :
    (a.captureFrom n s).frames.size = a.frames.size ∧ (a.captureFrom n s).free = a.free ∧
      (a.captureFrom n s).tracked = a.tracked := by
  induction n generalizing a s with
  | zero => exact ⟨rfl, rfl, rfl⟩
  | succ n ih =>
    simp only [captureFrom]
    split_ifs
    · exact ⟨rfl, rfl, rfl⟩
    · split
      · exact ⟨size_modify _ _ _, rfl, rfl⟩
      · obtain ⟨h1, h2, h3⟩ := ih (a.modify s fun fr => { fr with captured := true }) _
        exact ⟨h1.trans (size_modify _ _ _), h2, h3⟩

@[simp] theorem size_capture (a : Arena) (s : Slot) :
    (a.capture s).frames.size = a.frames.size := (captureFrom_rest a _ s).1

@[simp] theorem free_capture (a : Arena) (s : Slot) : (a.capture s).free = a.free :=
  (captureFrom_rest a _ s).2.1

@[simp] theorem tracked_capture (a : Arena) (s : Slot) : (a.capture s).tracked = a.tracked :=
  (captureFrom_rest a _ s).2.2

@[simp] theorem bindings_capture (a : Arena) (s t : Slot) :
    ((a.capture s).frame t).bindings = (a.frame t).bindings := by
  obtain ⟨m, hm⟩ := frame_captureFrom a a.frames.size s t
  rw [capture, hm]

@[simp] theorem enclosing_capture (a : Arena) (s t : Slot) :
    ((a.capture s).frame t).enclosing = (a.frame t).enclosing := by
  obtain ⟨m, hm⟩ := frame_captureFrom a a.frames.size s t
  rw [capture, hm]

@[simp] theorem active_capture (a : Arena) (s t : Slot) :
    ((a.capture s).frame t).active = (a.frame t).active := by
  obtain ⟨m, hm⟩ := frame_captureFrom a a.frames.size s t
  rw [capture, hm]

@[simp] theorem live_capture (a : Arena) (s t : Slot) :
    ((a.capture s).frame t).live = (a.frame t).live := by
  obtain ⟨m, hm⟩ := frame_captureFrom a a.frames.size s t
  rw [capture, hm]

theorem Outward.captured {path : List Slot} (h : a.Outward s path)
    (hup : ∀ t ∈ path, ∀ outer, (a.frame t).captured → (a.frame t).enclosing = some outer →
      (a.frame outer).captured) (hs : (a.frame s).captured) : ∀ t ∈ path, (a.frame t).captured := by
  induction h with
  | arrived => exact fun t ht => List.mem_singleton.mp ht ▸ hs
  | link _ enclosing _ _ ih =>
    intro t ht
    rcases List.mem_cons.mp ht with rfl | ht
    · exact hs
    · exact ih (fun t ht => hup t (List.mem_cons_of_mem _ ht))
        (hup _ List.mem_cons_self _ hs enclosing) t ht

/-- The early stop of a capture leaves nothing out. -/
theorem captured_captureFrom {path : List Slot} (h : a.Outward s path) {n : Nat}
    (hn : path.length ≤ n) (hlive : ∀ t ∈ path, (a.frame t).live)
    (hup : ∀ t ∈ path, ∀ outer, (a.frame t).captured → (a.frame t).enclosing = some outer →
      (a.frame outer).captured) (h0 : (a.frame globals).enclosing = none) (t : Slot) :
    ((a.captureFrom n s).frame t).captured = ((a.frame t).captured || decide (t ∈ path)) := by
  -- on the fuel, since the arena changes from one step to the next
  induction n generalizing a s path with
  | zero => exact absurd (List.length_pos_of_mem h.head_mem) (Nat.not_lt.mpr hn)
  | succ n ih =>
    simp only [captureFrom]
    split_ifs with hs
    · by_cases ht : t ∈ path
      · simp [ht, h.captured hup hs t ht]
      · simp [ht]
    · have hself := frame_modify_self (fun fr => { fr with captured := true }) (hlive s h.head_mem)
      cases h with
      | arrived =>
        simp only [h0]
        by_cases ht : t = globals
        · simp [ht, hself]
        · simp [ht, frame_modify_of_ne]
      | link live enclosing rest fresh =>
        simp only [enclosing]
        rename_i outer path
        have hne : ∀ u ∈ path, u ≠ s := fun u hu e => fresh (e ▸ hu)
        have hframe : ∀ u ∈ path,
            (a.modify s fun fr => { fr with captured := true }).frame u = a.frame u :=
          fun u hu => frame_modify_of_ne _ (hne u hu)
        rw [ih (rest.congr fun u hu hl => by rw [hframe u hu]; exact ⟨hl, rfl⟩)
          (Nat.le_of_succ_le_succ hn)]
        · by_cases ht : t = s
          · simp [ht, hself]
          · simp [ht, frame_modify_of_ne]
        · exact fun u hu => hframe u hu ▸ hlive u (List.mem_cons_of_mem _ hu)
        · intro u hu o hc he
          rw [hframe u hu] at hc he
          rw [frame_modify]
          split_ifs
          · rfl
          · exact hup u (List.mem_cons_of_mem _ hu) o hc he
        · rw [frame_modify]
          split_ifs with hg
          · rw [← hg.1]; exact h0
          · exact h0

end Arena

end Scriptlet
