import Scriptlet.Arena.Basic

/-!
# Recycling of frames

Freed slots are kept on a stack and the one freed last is used first. When the live frames reach a
threshold, pushing a frame collects first: it frees every live frame that can no longer be reached.

* `Arena.unreached`: the slots that cannot be reached from the given ones.
* `Arena.references`, `Arena.bound`: the references to a function, and those that the arena itself
  accounts for. A function with more of the first is held outside.
* `Arena.collect`: **frees what neither an active frame nor a function held outside reaches**.
* `Arena.push`, `Arena.release`: the life of a frame.
-/

namespace Scriptlet

namespace Arena

/-- Empties a slot and puts it on the stack of free slots. -/
def freeSlot (a : Arena) (s : Slot) : Arena :=
  { a with frames := a.frames.modify s fun _ => {}, free := a.free.push s }

/-! ## Reachability -/

/-- The frames that a frame refers to: the one around it, and those of the functions it binds. -/
def successors (a : Arena) (s : Slot) : List Slot :=
  (a.frame s).enclosing.toList ++ (a.frame s).closures.map Closure.env

/-- Those of the unvisited slots that cannot be reached from the pending ones. -/
def unreached (a : Arena) (unvisited pending : List Slot) : List Slot :=
  match pending with
  | [] => unvisited
  | s :: pending =>
    if s ∈ unvisited then a.unreached (unvisited.erase s) (a.successors s ++ pending)
    else a.unreached unvisited pending
termination_by (unvisited.length, pending.length)
decreasing_by
  · rename_i h
    have := List.length_pos_of_mem h
    exact Prod.Lex.left _ _ (by rw [List.length_erase_of_mem h]; omega)
  · exact Prod.Lex.right _ (by simp)

/-- All slots, in ascending order. -/
def slots (a : Arena) : List Slot := List.range a.frames.size

/-- The functions bound in the frames that satisfy `p`. -/
def closuresWhere (a : Arena) (p : Frame → Bool) : List Closure :=
  (a.frames.toList.filter p).flatMap Frame.closures

/-! ## Holders of functions -/

/-- How often a function occurs among others. Functions are told apart by their `id`. -/
def occurrences (f : Closure) (fs : List Closure) : Nat := fs.countP fun g => g.id == f.id

/-- How many references to a function there are: those of the values `held` outside the arena, and
those of the bindings in all frames. -/
def references (a : Arena) (held : List Value) (f : Closure) : Nat :=
  occurrences f (held.filterMap Value.closure?) + occurrences f (a.closuresWhere fun _ => true)

/-- How many of the references to a function are bindings in live frames. -/
def bound (a : Arena) (f : Closure) : Nat := occurrences f (a.closuresWhere Frame.live)

/-- Forgets the tracked functions that are dead: no reference to them is left. -/
def prune (a : Arena) (held : List Value) : Arena :=
  { a with tracked := a.tracked.filter fun f => 0 < a.references held f }

/-- Looks after a function when frames are collected. If there are many such functions, the dead
ones are forgotten, and the next time comes at twice the number of those that are left. -/
def track (a : Arena) (f : Closure) (held : List Value) : Arena :=
  let b := a.note f
  if b.pruneAt ≤ b.tracked.size then
    let c := b.prune held
    { c with pruneAt := max firstCollection (2 * c.tracked.size) }
  else b

/-! ## Collections -/

/-- Where the search for reachable frames starts: the active frames, and the environments of the
tracked functions that have more references than the live frames account for. -/
def roots (a : Arena) (held : List Value) : List Slot :=
  a.slots.filter (fun s => (a.frame s).live && (a.frame s).active) ++
    (a.tracked.toList.filter fun f => a.bound f < a.references held f).map Closure.env

/-- The live frames that are not reached, in ascending order. -/
def garbage (a : Arena) (held : List Value) : List Slot :=
  (a.unreached a.slots (a.roots held)).filter fun s => (a.frame s).live

/-- **A collection**: the dead functions are forgotten, and the live frames that are not reached
are freed in ascending order. A function that dies with these frames is forgotten by the next
collection. `held` are the values that the caller still holds. -/
def collect (a : Arena) (held : List Value) : Arena :=
  (a.garbage held).foldl freeSlot (a.prune held)

/-! ## Frames come and go -/

/-- Collects if the live frames have reached the threshold, which then moves to twice the number
of survivors. -/
def makeRoom (a : Arena) (held : List Value) : Arena :=
  if a.collectAt ≤ a.liveFrames then
    let b := a.collect held
    { b with collectAt := max firstCollection (2 * b.liveFrames) }
  else a

/-- A frame of its own behind all others. -/
def append (a : Arena) (f : Frame) : Slot × Arena :=
  (a.frames.size, { a with frames := a.frames.push f })

/-- Puts a frame into the slot freed last, or behind all others. -/
def place (a : Arena) (f : Frame) : Slot × Arena :=
  match a.free.back? with
  | some s => (s, { a with frames := a.frames.modify s fun _ => f, free := a.free.pop })
  | none => a.append f

/-- A fresh frame inside another. -/
def fresh (enclosing : Slot) : Frame :=
  { enclosing := some enclosing, active := true, live := true }

/-- Opens a frame inside another. -/
def push (a : Arena) (enclosing : Slot) (held : List Value) : Slot × Arena :=
  (a.makeRoom held).place (fresh enclosing)

/-- Closes a frame; it is freed unless it is captured. -/
def release (a : Arena) (s : Slot) : Arena :=
  if (a.frame s).captured then a.modify s fun f => { f with active := false } else a.freeSlot s

end Arena

end Scriptlet
