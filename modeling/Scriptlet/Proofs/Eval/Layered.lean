import Scriptlet.Proofs.Arena.Frames
import Scriptlet.Proofs.Scope.Scoped

/-!
# Frames follow scopes

Where all frames are kept, the frames from an environment outward are those of the scopes around a
place of the program, one for one, and each binds the names that its scope has declared so far.
Since a frame goes on growing after a function has captured it, it carries a label with all names
that its scope declares: what is not on the label is never bound there.

* `Arena.Lays`: **the frames from a slot outward are those of the given scopes**.
* `Arena.Lays.ancestor?_find`: what scope analysis has found is bound there.
* `Arena.Lays.findFrom_eq`: **the search by name ends where scope analysis found the name**, if all
  scopes passed by do not declare it.
* `Arena.Layered`: every function in the arena is over such frames.
* `Arena.Grows`: how an arena changes; `Lays` and `Layered` are kept.
-/

namespace Scriptlet

namespace Arena

/-- **The frames from a slot outward are those of the scopes.** Each is labelled with the names of
its scope and binds those that are declared so far. -/
inductive Lays (labels : Slot → List String) (a : Arena) : Slot → Layers → Prop
  | globals : Lays labels a globals []
  | frame {s outer : Slot} {l : Layer} {Γ : Layers} (inner : outer < s)
      (enclosing : (a.frame s).enclosing = some outer) (label : labels s = l.names)
      (bound : ∀ x ∈ l.bound, (a.get? s x).isSome) (rest : Lays labels a outer Γ) :
    Lays labels a s (l :: Γ)

/-- Frames other than the globals bind only names that are on their labels. -/
def Labelled (labels : Slot → List String) (a : Arena) : Prop :=
  ∀ s x, s ≠ globals → (a.get? s x).isSome → x ∈ labels s

variable {labels labels' : Slot → List String} {a b : Arena} {s t : Slot} {Γ : Layers} {x : String}

theorem lt_size_of_enclosing {outer : Slot} (h : (a.frame s).enclosing = some outer) :
    s < a.frames.size := by
  by_contra hs
  rw [frame_of_size_le (Nat.not_lt.mp hs)] at h
  cases h

theorem Lays.lt_size (h : Lays labels a s Γ) (h0 : 0 < a.frames.size) : s < a.frames.size := by
  cases h with
  | globals => exact h0
  | frame _ enclosing => exact lt_size_of_enclosing enclosing

theorem Lays.eq_globals (h : Lays labels a s []) : s = Arena.globals := by
  cases h
  rfl

theorem Lays.label {l : Layer} (h : Lays labels a s (l :: Γ)) : labels s = l.names := by
  cases h with
  | frame _ _ label => exact label

theorem Lays.label_of_fresh (h : Lays labels a s Γ) (hx : Layers.Fresh Γ x) :
    s ≠ Arena.globals → x ∈ labels s := by
  intro hne
  cases Γ with
  | nil => exact absurd h.eq_globals hne
  | cons l Γ =>
    rw [h.label]
    exact (hx l rfl).2

/-! ## Reading -/

/-- **What scope analysis has found is bound there.** -/
theorem Lays.ancestor?_find (h : Lays labels a s Γ) {d : Nat}
    (hd : Layers.find Γ x = .enclosing d) :
    ∃ t, a.ancestor? s d = some t ∧ (a.get? t x).isSome := by
  have hindex : Γ.findIdx? (fun l => decide (x ∈ l.bound)) = some d := by
    unfold Layers.find at hd
    split at hd
    · cases hd
      assumption
    · cases hd
  clear hd
  induction h generalizing d with
  | globals => cases hindex
  | @frame s outer l Γ inner enclosing label bound rest ih =>
    rw [List.findIdx?_cons] at hindex
    split_ifs at hindex with hx
    · cases hindex
      exact ⟨s, rfl, bound x (of_decide_eq_true hx)⟩
    · obtain ⟨d, hd, rfl⟩ := Option.map_eq_some_iff.mp hindex
      obtain ⟨t, ht, hbound⟩ := ih hd
      refine ⟨t, ?_, hbound⟩
      rw [ancestor?, enclosing]
      exact ht

/-- The search by name, from a frame outward: it passes by the frames whose scopes do not declare
the name, and stops at the first one that does. -/
theorem Lays.findFrom_eq (h : Lays labels a s Γ) (hlabels : Labelled labels a)
    (houter : (a.frame Arena.globals).enclosing = none) (hx : Layers.Settled Γ x) {n : Nat}
    (hn : s < n) :
    a.findFrom x n s =
      match Γ.findIdx? (fun l => decide (x ∈ l.bound)) with
      | some d => a.ancestor? s d
      | none => if (a.get? Arena.globals x).isSome then some Arena.globals else none := by
  induction h generalizing n with
  | globals =>
    obtain ⟨n, rfl⟩ := Nat.exists_eq_succ_of_ne_zero (Nat.ne_of_gt (Nat.zero_lt_of_lt hn))
    simp only [findFrom, houter, List.findIdx?_nil]
  | @frame s outer l Γ inner enclosing label bound rest ih =>
    obtain ⟨n, rfl⟩ := Nat.exists_eq_succ_of_ne_zero (Nat.ne_of_gt (Nat.zero_lt_of_lt hn))
    rw [List.findIdx?_cons]
    by_cases hbound : x ∈ l.bound
    · simp only [findFrom, bound x hbound, if_true, hbound, decide_true, ancestor?]
    · -- the name is not on the label, so the frame does not bind it
      obtain hbound' | ⟨hnames, hsettled⟩ := hx
      · exact absurd hbound' hbound
      have hnone : ¬ (a.get? s x).isSome := fun hget =>
        hnames (label ▸ hlabels s x (Nat.ne_of_gt (Nat.zero_lt_of_lt inner)) hget)
      have hmore := ih hsettled (n := n) (Nat.lt_of_lt_of_le inner (Nat.le_of_lt_succ hn))
      simp only [findFrom, if_neg hnone, enclosing, hmore, hbound, decide_false]
      cases Γ.findIdx? (fun l => decide (x ∈ l.bound)) with
      | none => rfl
      | some d => simp only [Bool.false_eq_true, if_false, Option.map_some, ancestor?, enclosing]

/-- **The search by name ends where scope analysis found the name.** -/
theorem Lays.find?_eq (h : Lays labels a s Γ) (hlabels : Labelled labels a)
    (houter : (a.frame Arena.globals).enclosing = none) (h0 : 0 < a.frames.size)
    (hx : Layers.Settled Γ x) :
    a.find? s x =
      match Layers.find Γ x with
      | .enclosing d => a.ancestor? s d
      | _ => if (a.get? Arena.globals x).isSome then some Arena.globals else none := by
  rw [find?, h.findFrom_eq hlabels houter hx (h.lt_size h0), Layers.find]
  cases Γ.findIdx? (fun l => decide (x ∈ l.bound)) <;> rfl

end Arena

/-! ## The invariant -/

/-- The body of a function is scoped over the frames that the function closes over. -/
def Closure.Sound (ordered : Prop) (labels : Slot → List String) (a : Arena) (f : Closure) : Prop :=
  f.params.Nodup ∧ ∃ Γ, a.Lays labels f.env Γ ∧
    Stmt.AllScoped ordered (.ofFunction f.params f.body :: Γ) f.body

/-- A value that is a sound function or none. -/
def Value.Sound (ordered : Prop) (labels : Slot → List String) (a : Arena) (v : Value) : Prop :=
  ∀ f, v = .function f → f.Sound ordered labels a

theorem Value.sound_of_closure? {ordered : Prop} {labels : Slot → List String} {a : Arena}
    {v : Value} (h : v.closure? = none) : v.Sound ordered labels a := by
  rintro f rfl
  cases h

namespace Arena

/-- **An arena whose frames follow scopes**: labels are kept, and every bound function is sound. -/
structure Layered (ordered : Prop) (labels : Slot → List String) (a : Arena) : Prop where
  nonempty : 0 < a.frames.size
  outermost : (a.frame globals).enclosing = none
  labelled : Labelled labels a
  sound {s : Slot} {x : String} {v : Value} (h : a.get? s x = some v) : v.Sound ordered labels a

/-- **How an arena changes**: frames are added, and of the frames that were there only `s` comes to
bind new names, all of them among `xs`. -/
structure Grows (labels labels' : Slot → List String) (a b : Arena) (s : Slot) (xs : List String) :
    Prop where
  labels {t : Slot} (ht : t < a.frames.size) : labels' t = labels t
  size : a.frames.size ≤ b.frames.size
  enclosing {t : Slot} (ht : t < a.frames.size) : (b.frame t).enclosing = (a.frame t).enclosing
  kept {t : Slot} {x : String} (h : (a.get? t x).isSome) : (b.get? t x).isSome
  only {t : Slot} {x : String} (ht : t < a.frames.size) (h : (b.get? t x).isSome) :
    (a.get? t x).isSome ∨ t = s ∧ x ∈ xs

variable {ordered : Prop} {labels labels' labels'' : Slot → List String} {a b c : Arena}
  {s t : Slot} {Γ : Layers} {x : String} {xs ys : List String}

namespace Grows

theorem trans (h : Grows labels labels' a b s xs) (h' : Grows labels' labels'' b c s xs) :
    Grows labels labels'' a c s xs where
  labels ht := (h'.labels (Nat.lt_of_lt_of_le ht h.size)).trans (h.labels ht)
  size := Nat.le_trans h.size h'.size
  enclosing ht := (h'.enclosing (Nat.lt_of_lt_of_le ht h.size)).trans (h.enclosing ht)
  kept hx := h'.kept (h.kept hx)
  only ht hx := (h'.only (Nat.lt_of_lt_of_le ht h.size) hx).elim (h.only ht) .inr

theorem mono (h : Grows labels labels' a b s xs) (hsub : xs ⊆ ys) :
    Grows labels labels' a b s ys :=
  { h with only := fun ht hx => (h.only ht hx).imp id fun ⟨hs, hx⟩ => ⟨hs, hsub hx⟩ }

theorem of_nil (h : Grows labels labels' a b s []) (t : Slot) (xs : List String) :
    Grows labels labels' a b t xs :=
  { h with only := fun ht hx => (h.only ht hx).imp id fun ⟨_, hx⟩ => nomatch hx }

theorem of_eq (hsize : b.frames.size = a.frames.size)
    (h : ∀ t, (b.frame t).bindings = (a.frame t).bindings ∧
      (b.frame t).enclosing = (a.frame t).enclosing) : Grows labels labels a b s xs where
  labels _ := rfl
  size := Nat.le_of_eq hsize.symm
  enclosing _ := (h _).2
  kept hx := by
    rw [get?, (h _).1]
    exact hx
  only _ hx := by
    rw [get?, (h _).1] at hx
    exact .inl hx

theorem refl (labels : Slot → List String) (a : Arena) (s : Slot) (xs : List String) :
    Grows labels labels a a s xs :=
  of_eq rfl fun _ => ⟨rfl, rfl⟩

end Grows

theorem Lays.grow (h : Lays labels a s Γ) (hg : Grows labels labels' a b t xs) :
    Lays labels' b s Γ := by
  induction h with
  | globals => exact .globals
  | frame inner enclosing label bound _ ih =>
    have hs := lt_size_of_enclosing enclosing
    exact .frame inner ((hg.enclosing hs).trans enclosing) ((hg.labels hs).trans label)
      (fun x hx => hg.kept (bound x hx)) ih

theorem Lays.bind (h : Lays labels a s Γ) (xs : List String) (hxs : ∀ x ∈ xs, (a.get? s x).isSome) :
    Lays labels a s (Layers.bind xs Γ) := by
  cases h with
  | globals => exact .globals
  | frame inner enclosing label bound rest =>
    exact .frame inner enclosing label (List.forall_mem_append.mpr ⟨hxs, bound⟩) rest

end Arena

theorem Closure.Sound.grow {ordered : Prop} {labels labels' : Slot → List String} {a b : Arena}
    {s : Slot} {xs : List String} {f : Closure} (h : f.Sound ordered labels a)
    (hg : a.Grows labels labels' b s xs) : f.Sound ordered labels' b := by
  obtain ⟨hnodup, Γ, hlays, hscoped⟩ := h
  exact ⟨hnodup, Γ, hlays.grow hg, hscoped⟩

theorem Value.Sound.grow {ordered : Prop} {labels labels' : Slot → List String} {a b : Arena}
    {s : Slot} {xs : List String} {v : Value} (h : v.Sound ordered labels a)
    (hg : a.Grows labels labels' b s xs) : v.Sound ordered labels' b :=
  fun f hf => (h f hf).grow hg

/-! ## Changes -/

namespace Arena

variable {ordered : Prop} {labels : Slot → List String} {a b : Arena}
  {s t : Slot} {Γ : Layers} {x : String}

theorem grows_define (labels : Slot → List String) (a : Arena) (s : Slot) (x : String) (v : Value) :
    Grows labels labels a (a.define s x v) s [x] where
  labels _ := rfl
  size := Nat.le_of_eq (size_define a s x v).symm
  enclosing _ := enclosing_define ..
  kept hy := by
    rw [get?_define]
    split_ifs
    · rfl
    · exact hy
  only _ hy := by
    rw [get?_define] at hy
    split_ifs at hy with h
    · exact .inr ⟨h.1, List.mem_singleton.mpr h.2.1⟩
    · exact .inl hy

theorem grows_assign (labels : Slot → List String) (v : Value) (hx : (a.get? s x).isSome)
    (t : Slot) : Grows labels labels a (a.define s x v) t [] :=
  have h := grows_define labels a s x v
  { h with
    only := fun ht hy => (h.only ht hy).elim .inl fun ⟨hts, hy⟩ => by
      obtain rfl := List.mem_singleton.mp hy
      exact .inl (hts ▸ hx) }

theorem Layered.define (h : Layered ordered labels a) {v : Value}
    (hlabel : s ≠ globals → x ∈ labels s) (hv : v.Sound ordered labels (a.define s x v)) :
    Layered ordered labels (a.define s x v) where
  nonempty := by
    rw [size_define]
    exact h.nonempty
  outermost := by
    rw [enclosing_define]
    exact h.outermost
  labelled t y ht hy := by
    rw [get?_define] at hy
    split_ifs at hy with hts
    · obtain ⟨rfl, rfl, -⟩ := hts
      exact hlabel ht
    · exact h.labelled t y ht hy
  sound {t y u} hu := by
    rw [get?_define] at hu
    split_ifs at hu
    · cases hu
      exact hv
    · exact (h.sound hu).grow (grows_define labels a s x v)

theorem Layered.assign (h : Layered ordered labels a) {v : Value} (hx : (a.get? s x).isSome)
    (hv : v.Sound ordered labels a) : Layered ordered labels (a.define s x v) :=
  h.define (fun hs => h.labelled s x hs hx) (hv.grow (grows_assign labels v hx s))

theorem Layered.of_eq (h : Layered ordered labels a) (hsize : b.frames.size = a.frames.size)
    (hb : ∀ t, (b.frame t).bindings = (a.frame t).bindings ∧
      (b.frame t).enclosing = (a.frame t).enclosing) : Layered ordered labels b where
  nonempty := hsize ▸ h.nonempty
  outermost := (hb globals).2.trans h.outermost
  labelled t y ht hy := by
    rw [get?, (hb t).1] at hy
    exact h.labelled t y ht hy
  sound {t y v} hv := by
    rw [get?, (hb t).1] at hv
    have hgrows : Grows labels labels a b t [] := .of_eq hsize hb
    exact (h.sound hv).grow hgrows

/-- The label of a new frame. -/
def withLabel (labels : Slot → List String) (a : Arena) (names : List String) :
    Slot → List String :=
  Function.update labels a.frames.size names

theorem withLabel_self (labels : Slot → List String) (a : Arena) (names : List String) :
    withLabel labels a names a.frames.size = names := Function.update_self ..

theorem get?_append (a : Arena) (env t : Slot) (x : String) :
    (a.append (fresh env)).2.get? t x = a.get? t x := by
  rw [get?, frame_append]
  split_ifs with ht
  · rw [get?, ht, frame_of_size_le (Nat.le_refl _)]
    rfl
  · rfl

theorem grows_append (labels : Slot → List String) (a : Arena) (env : Slot) (names : List String)
    (t : Slot) :
    Grows labels (withLabel labels a names) a (a.append (fresh env)).2 t [] where
  labels ht := Function.update_of_ne (Nat.ne_of_lt ht) _ _
  size := by
    rw [append, Array.size_push]
    exact Nat.le_succ _
  enclosing ht := by rw [frame_append, if_neg (Nat.ne_of_lt ht)]
  kept hx := by
    rw [get?_append]
    exact hx
  only _ hx := by
    rw [get?_append] at hx
    exact .inl hx

/-- **A frame is opened** for a new scope. -/
theorem Layered.append (h : Layered ordered labels a) (env : Slot) (names : List String) :
    Layered ordered (withLabel labels a names) (a.append (fresh env)).2 where
  nonempty := Nat.lt_of_lt_of_le h.nonempty (grows_append labels a env names env).size
  outermost := by
    have hne : globals ≠ a.frames.size := Nat.ne_of_lt h.nonempty
    rw [frame_append, if_neg hne]
    exact h.outermost
  labelled t y ht hy := by
    rw [get?_append] at hy
    rw [withLabel, Function.update_of_ne (Nat.ne_of_lt (lt_size_of_get? hy))]
    exact h.labelled t y ht hy
  sound {t y v} hv := by
    rw [get?_append] at hv
    exact (h.sound hv).grow (grows_append labels a env names t)

theorem Lays.append (h : Lays labels a s Γ) (h0 : 0 < a.frames.size) (names : List String) :
    Lays (withLabel labels a names) (a.append (fresh s)).2 a.frames.size (⟨[], names⟩ :: Γ) := by
  refine .frame (h.lt_size h0) ?_ (withLabel_self labels a names) nofun
    (h.grow (grows_append labels a s names s))
  rw [frame_append, if_pos rfl]
  rfl

end Arena

end Scriptlet
