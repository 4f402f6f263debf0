import Mathlib.Data.Finset.Card
import Scriptlet.Proofs.Arena.Reachable

/-!
# Garbage stays below the threshold

The number of live frames is a difference of two sizes, and the threshold moves only when opening a
frame has started a collection. Between two such collections frames that are opened count against
the threshold, and all other moves can only take live frames away.

* `Arena.liveSlots`: the slots of live frames, which `Arena.liveFrames` counts.
* `Arena.Eases`: the changes that add no live frame and leave the threshold alone.
* `World.History`: **moves with the number of survivors of the last collection** that an opening
  started.
* `World.History.bounded`: the threshold follows from the survivors, and the live frames are not
  more than that.
* **`live_frames_bounded`**: all of this after every sequence of moves.
-/

namespace Scriptlet

open Arena (globals)

/-! ## Live frames -/

namespace Arena

variable {a b c : Arena} {s : Slot}

/-- The slots of live frames. -/
def liveSlots (a : Arena) : Finset Slot :=
  (Finset.range a.frames.size).filter fun s => (a.frame s).live

theorem mem_liveSlots {s : Slot} : s ∈ a.liveSlots ↔ (a.frame s).live := by
  simp only [liveSlots, Finset.mem_filter, Finset.mem_range, and_iff_right_iff_imp]
  exact lt_size_of_live

theorem Shaped.card_liveSlots (ha : a.Shaped) : a.liveSlots.card = a.liveFrames := by
  have hfree : (Finset.range a.frames.size).filter (fun s => ¬ (a.frame s).live) =
      a.free.toList.toFinset := by
    ext s
    simp [ha.mem_free s]
  have hsplit := Finset.card_filter_add_card_filter_not (s := Finset.range a.frames.size)
    fun s => (a.frame s).live = true
  rw [hfree, List.toFinset_card_of_nodup ha.free_nodup, Finset.card_range] at hsplit
  have hsum : a.liveSlots.card + a.free.size = a.frames.size := hsplit
  unfold liveFrames
  omega

theorem Shaped.liveFrames_le (ha : a.Shaped) (hb : b.Shaped)
    (h : ∀ s, (b.frame s).live → (a.frame s).live) : b.liveFrames ≤ a.liveFrames := by
  rw [← ha.card_liveSlots, ← hb.card_liveSlots]
  exact Finset.card_le_card fun s hs => mem_liveSlots.mpr (h s (mem_liveSlots.mp hs))

theorem Shaped.liveFrames_lt (ha : a.Shaped) (hb : b.Shaped)
    (h : ∀ s, (b.frame s).live → (a.frame s).live) {t : Slot} (ht : (a.frame t).live)
    (ht' : ¬ (b.frame t).live) : b.liveFrames < a.liveFrames := by
  rw [← ha.card_liveSlots, ← hb.card_liveSlots]
  refine Finset.card_lt_card ⟨fun s hs => mem_liveSlots.mpr (h s (mem_liveSlots.mp hs)), ?_⟩
  exact fun hsub => ht' (mem_liveSlots.mp (hsub (mem_liveSlots.mpr ht)))

theorem Shaped.one_le_liveFrames (ha : a.Shaped) : 1 ≤ a.liveFrames := by
  rw [← ha.card_liveSlots]
  exact Finset.card_pos.mpr ⟨globals, mem_liveSlots.mpr ha.globals_live⟩

/-! ## Changes -/

theorem Shaped.liveFrames_place (ha : a.Shaped) (fr : Frame) :
    (a.place fr).2.liveFrames = a.liveFrames + 1 := by
  have hpos := ha.one_le_liveFrames
  unfold liveFrames at hpos ⊢
  rcases place_cases a fr with ⟨s, rest, hfree, hplace⟩ | ⟨hfree, hplace⟩
  · rw [hplace]
    rw [hfree, Array.size_push] at hpos ⊢
    show (a.frames.modify s _).size - rest.size = _
    rw [Array.size_modify]
    omega
  · rw [hplace]
    show (a.frames.push fr).size - a.free.size = _
    rw [Array.size_push]
    omega

theorem collectAt_place (a : Arena) (fr : Frame) : (a.place fr).2.collectAt = a.collectAt := by
  rcases place_cases a fr with ⟨s, rest, -, hplace⟩ | ⟨-, hplace⟩ <;> rw [hplace]
  rfl

/-- **No live frame is added**, and the threshold stays. -/
structure Eases (a b : Arena) : Prop where
  threshold : b.collectAt = a.collectAt
  liveFrames : b.liveFrames ≤ a.liveFrames

theorem Eases.refl (a : Arena) : a.Eases a := ⟨rfl, Nat.le_refl _⟩

theorem Eases.trans (h : a.Eases b) (h' : b.Eases c) : a.Eases c :=
  ⟨h'.threshold.trans h.threshold, h'.liveFrames.trans h.liveFrames⟩

theorem eases_modify (a : Arena) (s : Slot) (g : Frame → Frame) : a.Eases (a.modify s g) where
  threshold := rfl
  liveFrames := by rw [Arena.liveFrames, size_modify, free_modify, Arena.liveFrames]

theorem eases_freeSlot (a : Arena) (s : Slot) : a.Eases (a.freeSlot s) where
  threshold := rfl
  liveFrames := by
    simp only [Arena.liveFrames, freeSlot, Array.size_modify, Array.size_push]
    omega

theorem eases_freeAll (a : Arena) (ss : List Slot) : a.Eases (a.freeAll ss) := by
  induction ss generalizing a with
  | nil => exact .refl a
  | cons s ss ih => exact (eases_freeSlot a s).trans (ih (a.freeSlot s))

theorem eases_captureFrom (a : Arena) (n : Nat) (s : Slot) : a.Eases (a.captureFrom n s) := by
  induction n generalizing a s with
  | zero => exact .refl a
  | succ n ih =>
    simp only [captureFrom]
    split_ifs
    · exact .refl a
    · split
      · exact eases_modify a s _
      · exact (eases_modify a s _).trans (ih _ _)

theorem eases_collect (a : Arena) (held : List Value) : a.Eases (a.collect held) :=
  have h := eases_freeAll (a.prune held) (a.garbage held)
  ⟨h.threshold, h.liveFrames⟩

theorem eases_track (a : Arena) (f : Closure) (held : List Value) : a.Eases (a.track f held) where
  threshold := collectAt_track a f held
  liveFrames := by rw [Arena.liveFrames, frames_track, free_track, Arena.liveFrames]

theorem eases_release (a : Arena) (s : Slot) : a.Eases (a.release s) := by
  unfold release
  split_ifs
  · exact eases_modify a s _
  · exact eases_freeSlot a s

/-! ## Opening a frame -/

/-- **Below the threshold** a frame is added and nothing else changes. -/
theorem Shaped.push_of_lt (ha : a.Shaped) (env : Slot) (held : List Value)
    (h : a.liveFrames < a.collectAt) :
    (a.push env held).2.collectAt = a.collectAt ∧
      (a.push env held).2.liveFrames = a.liveFrames + 1 := by
  have hroom : a.makeRoom held = a := if_neg (Nat.not_le.mpr h)
  unfold push
  rw [hroom]
  exact ⟨collectAt_place a _, ha.liveFrames_place _⟩

/-- **At the threshold** a frame is added to the survivors, from which the threshold is set. -/
theorem push_of_le (env : Slot) (held : List Value) (hb : (a.makeRoom held).Shaped)
    (h : a.collectAt ≤ a.liveFrames) :
    (a.push env held).2.collectAt = max firstCollection (2 * (a.collect held).liveFrames) ∧
      (a.push env held).2.liveFrames = (a.collect held).liveFrames + 1 := by
  have hroom : a.makeRoom held =
      { a.collect held with collectAt := max firstCollection (2 * (a.collect held).liveFrames) } :=
    if_pos h
  unfold push
  refine ⟨?_, ?_⟩
  · rw [collectAt_place, hroom]
  · rw [hb.liveFrames_place, hroom]
    rfl

end Arena

namespace World

variable {w w' : World} {n : Nat}

/-! ## Histories -/

/-- **A history of moves**: the world that they lead to, and the number of frames that survived the
last collection that was started by opening a frame, or zero if there was none. Opening a frame is
the only move after which a frame is active that was not. -/
inductive History : Nat → World → Prop
  | start : History 0 start
  | opened {n : Nat} {w : World} (h : History n w) (env : Slot) (opens : w.Opens env)
      (room : w.arena.liveFrames < w.arena.collectAt) :
    History n { w with arena := (w.arena.push env w.held).2 }
  | collected {n : Nat} {w : World} (h : History n w) (env : Slot) (opens : w.Opens env)
      (full : w.arena.collectAt ≤ w.arena.liveFrames) :
    History (w.arena.collect w.held).liveSlots.card
      { w with arena := (w.arena.push env w.held).2 }
  | moved {n : Nat} {w w' : World} (h : History n w) (step : Step w w')
      (quiet : ∀ s, (w'.arena.frame s).active → (w.arena.frame s).active) : History n w'

/-- **A move opens a frame**, or it adds no live frame and makes no frame active. -/
theorem Step.opens_or_eases (h : Step w w') (hw : w.Valid) :
    (∃ env, w.Opens env ∧ w' = { w with arena := (w.arena.push env w.held).2 }) ∨
      w.arena.Eases w'.arena ∧ ∀ s, (w'.arena.frame s).active → (w.arena.frame s).active := by
  cases h with
  | push env opens => exact .inl ⟨env, opens, rfl⟩
  | release s closes =>
    refine .inr ⟨Arena.eases_release _ s, fun t ht => ?_⟩
    rw [Arena.active_release (hw.live_of_active closes.1), Bool.and_eq_true] at ht
    exact ht.1
  | capture s live =>
    refine .inr ⟨Arena.eases_captureFrom _ _ s, fun t ht => ?_⟩
    rwa [Arena.active_capture] at ht
  | function env active captured name params body =>
    refine .inr ⟨Arena.eases_track _ _ _, fun t ht => ?_⟩
    rwa [Arena.frame_track] at ht
  | define s live name v storable =>
    refine .inr ⟨Arena.eases_modify _ s _, fun t ht => ?_⟩
    rwa [Arena.active_define] at ht
  | assignAt live storable assigned =>
    obtain ⟨t, -, rfl⟩ := Arena.define_of_assignAt? assigned
    refine .inr ⟨Arena.eases_modify _ t _, fun u hu => ?_⟩
    rwa [Arena.active_define] at hu
  | assign live storable assigned =>
    obtain ⟨t, -, rfl⟩ := Arena.define_of_assign? assigned
    refine .inr ⟨Arena.eases_modify _ t _, fun u hu => ?_⟩
    rwa [Arena.active_define] at hu
  | collect =>
    refine .inr ⟨Arena.eases_collect _ _, fun t ht => ?_⟩
    have hstays : (w.arena.collect w.held).frame t = w.arena.frame t :=
      (Arena.frame_freeAll_of_live (hw.collect.live_of_active ht)).2
    exact hstays ▸ ht
  | hold v storable => exact .inr ⟨.refl _, fun _ => id⟩
  | drop held subset => exact .inr ⟨.refl _, fun _ => id⟩

theorem History.reachable (h : History n w) : w.Reachable := by
  induction h with
  | start => exact .start
  | opened _ env opens _ ih => exact ih.step (.push env opens)
  | collected _ env opens _ ih => exact ih.step (.push env opens)
  | moved _ step _ ih => exact ih.step step

/-- Every sequence of moves has a history. -/
theorem Reachable.exists_history (h : w.Reachable) : ∃ n, History n w := by
  induction h with
  | start => exact ⟨0, .start⟩
  | @step w w' reachable step ih =>
    obtain ⟨n, ih⟩ := ih
    rcases step.opens_or_eases reachable.valid with ⟨env, opens, rfl⟩ | ⟨-, quiet⟩
    · by_cases hroom : w.arena.liveFrames < w.arena.collectAt
      · exact ⟨n, ih.opened env opens hroom⟩
      · exact ⟨_, ih.collected env opens (Nat.not_lt.mp hroom)⟩
    · exact ⟨n, ih.moved step quiet⟩

/-- **The threshold is set by the survivors** of the last collection that an opening started, and no
more frames are live. -/
theorem History.bounded (h : History n w) :
    w.arena.collectAt = max firstCollection (2 * n) ∧ w.arena.liveFrames ≤ w.arena.collectAt := by
  induction h with
  | start => exact ⟨rfl, by decide⟩
  | @opened n w h env opens room ih =>
    obtain ⟨hthreshold, hlive⟩ := h.reachable.valid.toShaped.push_of_lt env w.held room
    exact ⟨hthreshold.trans ih.1, by dsimp only; omega⟩
  | @collected n w h env opens full ih =>
    have hw := h.reachable.valid
    have hsurvivors := hw.collect.toShaped.one_le_liveFrames
    obtain ⟨hthreshold, hlive⟩ := Arena.push_of_le env w.held hw.makeRoom.toShaped full
    rw [hw.collect.toShaped.card_liveSlots]
    dsimp only at hsurvivors ⊢
    exact ⟨hthreshold, by omega⟩
  | @moved n w w' h step quiet ih =>
    have hw := h.reachable.valid
    rcases step.opens_or_eases hw with ⟨env, -, rfl⟩ | ⟨heases, -⟩
    · -- the frame that was opened would have been active before
      refine absurd (quiet _ ?_) (hw.not_active_push env)
      rw [hw.active_push, decide_eq_true rfl, Bool.or_true]
    · rw [heases.threshold]
      exact ⟨ih.1, heases.liveFrames.trans ih.2⟩

/-- **Garbage never piles up past the threshold.** Every sequence of moves has a history, and after
it the number of slots that are not free is the number of live frames; it is at least one and at
most the first threshold or twice the number of frames that survived the last collection started by
opening a frame, whichever is more. -/
theorem live_frames_bounded :
    (∀ w, Reachable w ↔ ∃ n, History n w) ∧
      ∀ n w, History n w →
        w.arena.liveFrames = w.arena.liveSlots.card ∧ 1 ≤ w.arena.liveFrames ∧
          w.arena.liveFrames ≤ max firstCollection (2 * n) := by
  refine ⟨fun w => ⟨fun h => h.exists_history, fun ⟨n, h⟩ => h.reachable⟩, fun n w h => ?_⟩
  have hshaped := h.reachable.valid.toShaped
  obtain ⟨hthreshold, hlive⟩ := h.bounded
  exact ⟨hshaped.card_liveSlots.symm, hshaped.one_le_liveFrames, hthreshold ▸ hlive⟩

/-- So many frames inside the globals, none of which is closed. -/
def crowd : Nat → World
  | 0 => start
  | k + 1 => { crowd k with arena := ((crowd k).arena.push globals (crowd k).held).2 }

theorem crowd_opens (k : Nat) : (crowd k).Reachable ∧ (crowd k).Opens globals := by
  have hreachable : (crowd k).Reachable := by
    induction k with
    | zero => exact .start
    | succ k ih => exact ih.step (.push globals (.inl ih.valid.globals_active))
  exact ⟨hreachable, .inl hreachable.valid.globals_active⟩

theorem history_crowd {k : Nat} (hk : k < firstCollection) :
    History 0 (crowd k) ∧ (crowd k).arena.liveFrames = k + 1 := by
  induction k with
  | zero => exact ⟨.start, rfl⟩
  | succ k ih =>
    obtain ⟨hhistory, hlive⟩ := ih (by omega)
    have hroom : (crowd k).arena.liveFrames < (crowd k).arena.collectAt := by
      rw [hhistory.bounded.1, hlive]
      omega
    obtain ⟨hreachable, hopens⟩ := crowd_opens k
    refine ⟨hhistory.opened globals hopens hroom, ?_⟩
    rw [crowd, (hreachable.valid.toShaped.push_of_lt _ _ hroom).2, hlive]

/-- The frame that is opened at the first threshold: a collection comes before it, and the bound is
set by its survivors. -/
theorem live_frames_bounded_crowd :
    ∃ n, n = ((crowd 63).arena.collect (crowd 63).held).liveSlots.card ∧ History n (crowd 64) ∧
      (crowd 64).arena.liveFrames = (crowd 64).arena.liveSlots.card ∧
        1 ≤ (crowd 64).arena.liveFrames ∧
          (crowd 64).arena.liveFrames ≤ max firstCollection (2 * n) := by
  obtain ⟨hhistory, hlive⟩ := history_crowd (k := 63) (by decide)
  have hfull : (crowd 63).arena.collectAt ≤ (crowd 63).arena.liveFrames := by
    rw [hhistory.bounded.1, hlive]
    decide
  have hcollected : History _ (crowd 64) := hhistory.collected globals (crowd_opens 63).2 hfull
  exact ⟨_, rfl, hcollected, live_frames_bounded.2 _ _ hcollected⟩

end World

end Scriptlet
