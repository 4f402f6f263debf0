import Scriptlet.Proofs.Arena.Reachable

/-!
# Search by name and access by distance

A variable can be read and written in two ways: in the frame at a fixed distance, or in the first
frame outward that binds its name. The two are written apart, and a search counts its steps only so
that it ends. On the way outward from a live frame they meet, because that way passes no frame twice
and leads to the globals.

* `Arena.Nearest`: the nearest frame that binds a name, and its distance.
* `Arena.Rebinds`: **one binding gets a new value, and nothing else changes**.
* `Arena.Shaped.find?_cases`: a search ends in the nearest frame, or no frame on the way outward
  binds the name.
* `search_nearest`: **search by name is access at the least distance**, in every reachable arena.
-/

namespace Scriptlet

open Arena (globals)

theorem Bindings.map_fst_insert {b : Bindings} {name : String} (h : (b.lookup name).isSome)
    (v : Value) : (b.insert name v).map Prod.fst = b.map Prod.fst := by
  induction b with
  | nil => cases h
  | cons p b ih =>
    obtain ⟨n, u⟩ := p
    by_cases hn : n = name
    · simp [insert, hn]
    · have hne : (name == n) = false := beq_eq_false_iff_ne.mpr (Ne.symm hn)
      rw [List.lookup_cons, hne] at h
      simp [insert, hn, ih h]

namespace Arena

variable {a b : Arena} {s t : Slot} {x : String} {d : Nat}

/-! ## Distances -/

/-- **The nearest frame that binds a name**: it stands at the given distance outward, and no frame on
the way to it binds the name. -/
structure Nearest (a : Arena) (s : Slot) (x : String) (d : Nat) (t : Slot) : Prop where
  frame : a.ancestor? s d = some t
  bound : (a.get? t x).isSome
  least : ∀ i < d, ∀ u, a.ancestor? s i = some u → a.get? u x = none

theorem Nearest.unique {d e : Nat} {t u : Slot} (h : a.Nearest s x d t) (h' : a.Nearest s x e u) :
    t = u := by
  have not_lt : ∀ {d e t u}, a.Nearest s x d t → a.Nearest s x e u → ¬ d < e := by
    intro d e t u hd he hlt
    have hbound := hd.bound
    rw [he.least d hlt t hd.frame] at hbound
    cases hbound
  have := not_lt h h'
  have := not_lt h' h
  obtain rfl : d = e := by omega
  exact Option.some.inj (h.frame.symm.trans h'.frame)

theorem access_eq_none (h : ∀ t, a.ancestor? s d = some t → a.get? t x = none) (v : Value) :
    a.getAt? s d x = none ∧ a.assignAt? s d x v = none := by
  rw [getAt?, assignAt?]
  cases hd : a.ancestor? s d with
  | none => exact ⟨rfl, rfl⟩
  | some t => simp [set?, h t hd]

theorem Nearest.access (h : a.Nearest s x d t) (v : Value) :
    a.getAt? s d x = a.get? t x ∧ a.assignAt? s d x v = some (a.define t x v) := by
  rw [getAt?, assignAt?, h.frame, Option.bind_some, Option.bind_some, set?, if_pos h.bound]
  exact ⟨rfl, rfl⟩

/-! ## The way outward -/

/-- **The way outward ends**, at the length of the path to the globals. -/
theorem Outward.ancestor?_eq_none_iff {path : List Slot} (h : a.Outward s path)
    (h0 : (a.frame globals).enclosing = none) : a.ancestor? s d = none ↔ path.length ≤ d := by
  rw [h.ancestor? h0, List.getElem?_eq_none_iff]

/-- **A search ends in the nearest frame**, unless no frame outward binds the name. -/
theorem Shaped.find?_cases (ha : a.Shaped) (hs : (a.frame s).live) (x : String) :
    (∃ d t, a.Nearest s x d t ∧ a.find? s x = some t) ∨
      (∀ d t, a.ancestor? s d = some t → a.get? t x = none) ∧ a.find? s x = none := by
  obtain ⟨path, hpath⟩ := ha.outward hs
  have hfind := hpath.find? ha.globals_live ha.globals_outermost x
  have hway := hpath.ancestor? ha.globals_outermost
  cases hfound : path.find? fun t => (a.get? t x).isSome with
  | some t =>
    obtain ⟨hx, d, hd, rfl, hbefore⟩ := List.find?_eq_some_iff_getElem.mp hfound
    refine .inl ⟨d, path[d], ⟨?_, hx, fun i hi u hu => ?_⟩, hfind.trans hfound⟩
    · rw [hway, List.getElem?_eq_getElem hd]
    · have hless : i < path.length := Nat.lt_trans hi hd
      obtain rfl : path[i] = u := by
        rw [hway, List.getElem?_eq_getElem hless] at hu
        exact Option.some.inj hu
      simpa using hbefore i hi
  | none =>
    refine .inr ⟨fun d t ht => ?_, hfind.trans hfound⟩
    rw [hway] at ht
    simpa using List.find?_eq_none.mp hfound t (List.mem_of_getElem? ht)

/-! ## One binding changes -/

/-- **In `b` the name has the value `v` in the frame `t`, and all else is as in `a`**: the other
values of that frame, its names, its link and marks, all other frames, the free slots, the tracked
functions and the threshold. -/
structure Rebinds (a : Arena) (t : Slot) (x : String) (v : Value) (b : Arena) : Prop where
  value : b.get? t x = some v
  others : ∀ y ≠ x, b.get? t y = a.get? t y
  names : (b.frame t).bindings.map Prod.fst = (a.frame t).bindings.map Prod.fst
  frame : { b.frame t with bindings := [] } = { a.frame t with bindings := [] }
  frames : ∀ u ≠ t, b.frame u = a.frame u
  size : b.frames.size = a.frames.size
  rest : { b with frames := #[] } = { a with frames := #[] }

theorem rebinds_define (h : (a.get? t x).isSome) (v : Value) :
    a.Rebinds t x v (a.define t x v) := by
  have ht := lt_size_of_get? h
  have hframe : (a.define t x v).frame t =
      { a.frame t with bindings := (a.frame t).bindings.insert x v } := by
    rw [define, frame_modify, if_pos ⟨rfl, ht⟩]
  exact {
    value := get?_define_self ht x v
    others := fun y hy => by rw [get?_define, if_neg fun h => hy h.2.1]
    names := by rw [hframe]; exact Bindings.map_fst_insert h v
    frame := by rw [hframe]
    frames := fun u hu => frame_define_of_ne hu
    size := size_define a t x v
    rest := rfl }

/-! ## Search and access -/

/-- **What a search finds and changes** is what access at the least distance finds and changes. -/
theorem Shaped.search_of_nearest (ha : a.Shaped) (hs : (a.frame s).live) (h : a.Nearest s x d t)
    (v : Value) :
    a.lookup? s x = a.getAt? s d x ∧ a.getAt? s d x = a.get? t x ∧ ∃ b,
      a.assign? s x v = some b ∧ a.assignAt? s d x v = some b ∧ a.Rebinds t x v b ∧
        b.lookup? s x = some v := by
  obtain ⟨hget, hset⟩ := h.access v
  have hfind : a.find? s x = some t := by
    obtain ⟨e, u, hnearest, hfind⟩ | ⟨hnone, -⟩ := ha.find?_cases hs x
    · rwa [h.unique hnearest]
    · have hbound := h.bound
      rw [hnone d t h.frame] at hbound
      cases hbound
  refine ⟨?_, hget, a.define t x v, ?_, hset, rebinds_define h.bound v, ?_⟩
  · rw [lookup?, hfind, hget, Option.bind_some]
  · rw [assign?, hfind, Option.map_some]
  · rw [lookup?, find?_define h.bound, hfind]
    exact get?_define_self (lt_size_of_get? h.bound) x v

/-- **A search fails** if no frame outward binds the name. -/
theorem Shaped.search_of_unbound (ha : a.Shaped) (hs : (a.frame s).live)
    (h : ∀ d t, a.ancestor? s d = some t → a.get? t x = none) (v : Value) :
    a.lookup? s x = none ∧ a.assign? s x v = none := by
  obtain ⟨d, t, hnearest, -⟩ | ⟨-, hfind⟩ := ha.find?_cases hs x
  · have hbound := hnearest.bound
    rw [h d t hnearest.frame] at hbound
    cases hbound
  · rw [lookup?, assign?, hfind]
    exact ⟨rfl, rfl⟩

theorem isSome_assign? (a : Arena) (s : Slot) (x : String) (v : Value) :
    (a.assign? s x v).isSome = (a.lookup? s x).isSome := by
  rw [assign?, lookup?]
  cases hfind : a.find? s x with
  | none => rfl
  | some t => exact (isSome_get?_of_findFrom hfind).symm

end Arena

namespace World

/-- **Search by name is access at the least distance.** In every reachable arena, from a live frame,
* a name that some frame outward binds is read and written by search as at the least distance where
  it is bound. Writing changes that one binding, so that the search then finds the new value;
* a name that no frame outward binds is neither read nor written by search;
* writing by search succeeds exactly if reading by search does;
* at a distance where no frame is, or where the frame does not bind the name, it is neither read nor
  written;
* there is a frame at every distance up to that of the globals, and none beyond. -/
theorem search_nearest {w : World} (h : w.Reachable) {s : Slot} (hs : (w.arena.frame s).live)
    (x : String) (v : Value) :
    (∀ d t, w.arena.Nearest s x d t →
      w.arena.lookup? s x = w.arena.getAt? s d x ∧ w.arena.getAt? s d x = w.arena.get? t x ∧ ∃ b,
        w.arena.assign? s x v = some b ∧ w.arena.assignAt? s d x v = some b ∧
        w.arena.Rebinds t x v b ∧ b.lookup? s x = some v) ∧
    ((∀ d t, w.arena.ancestor? s d = some t → w.arena.get? t x = none) →
      w.arena.lookup? s x = none ∧ w.arena.assign? s x v = none) ∧
    ((w.arena.assign? s x v).isSome ↔ (w.arena.lookup? s x).isSome) ∧
    (∀ d, (∀ t, w.arena.ancestor? s d = some t → w.arena.get? t x = none) →
      w.arena.getAt? s d x = none ∧ w.arena.assignAt? s d x v = none) ∧
    ∃ n, w.arena.ancestor? s n = some globals ∧ ∀ d, w.arena.ancestor? s d = none ↔ n < d := by
  have hw := h.valid
  refine ⟨fun d t ht => hw.search_of_nearest hs ht v, fun hnone => hw.search_of_unbound hs hnone v,
    ?_, fun d hd => Arena.access_eq_none hd v, ?_⟩
  · rw [Arena.isSome_assign?]
  · obtain ⟨path, hpath⟩ := hw.outward hs
    have hpos := hpath.length_pos
    refine ⟨path.length - 1, hpath.ancestor?_length hw.globals_outermost, fun d => ?_⟩
    rw [hpath.ancestor?_eq_none_iff hw.globals_outermost]
    omega

/-- Three frames inside each other, of which the outer two bind a name. -/
def hidden : World :=
  { start with arena := (((Arena.empty.push globals []).2.push 1 []).2.define globals "x"
      .null).define 1 "x" (.bool true) }

theorem hidden_reachable : hidden.Reachable := by
  have h1 := Reachable.start.step (.push globals (.inl rfl))
  have h2 := h1.step (.push 1 (.inl rfl))
  have h3 := h2.step (.define globals rfl "x" .null (storable_plain rfl))
  exact h3.step (.define 1 rfl "x" (.bool true) (storable_plain rfl))

/-- From the innermost frame, which does not bind it itself, the name is found one frame outward and
not in the globals. -/
theorem search_nearest_hidden :
    hidden.Reachable ∧ hidden.arena.Nearest 2 "x" 1 1 ∧
      hidden.arena.lookup? 2 "x" = hidden.arena.getAt? 2 1 "x" ∧
      (∃ b, hidden.arena.assign? 2 "x" (.bool false) = some b ∧
        hidden.arena.Rebinds 1 "x" (.bool false) b ∧ b.lookup? 2 "x" = some (.bool false)) ∧
      hidden.arena.getAt? 2 0 "x" = none ∧
      hidden.arena.assignAt? 2 0 "x" (.bool false) = none := by
  have hself : ∀ t, hidden.arena.ancestor? 2 0 = some t → hidden.arena.get? t "x" = none := by
    rintro t ⟨⟩
    rfl
  have hnearest : hidden.arena.Nearest 2 "x" 1 1 := ⟨rfl, rfl, fun i hi => by
    obtain rfl : i = 0 := by omega
    exact hself⟩
  obtain ⟨hfound, -, -, hmissing, -⟩ :=
    search_nearest hidden_reachable (s := 2) rfl "x" (.bool false)
  obtain ⟨hlookup, -, b, hassign, -, hrebinds, hread⟩ := hfound 1 1 hnearest
  obtain ⟨hget, hset⟩ := hmissing 0 hself
  exact ⟨hidden_reachable, hnearest, hlookup, ⟨b, hassign, hrebinds, hread⟩, hget, hset⟩

end World

end Scriptlet
