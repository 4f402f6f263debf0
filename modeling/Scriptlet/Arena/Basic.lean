import Scriptlet.Value.Basic

/-!
# Environments

Environments are frames in an arena and are named by their slot. A frame binds names to values and
knows the frame around it; slot `0` holds the globals.

A frame is **live** from the moment it is pushed, **active** until it is released, and **captured**
once a function closes over it or over a frame inside it. A released frame that is not captured is
freed at once and its slot is used again; captured frames wait for a collection.

* `Arena.define`, `Arena.get?`, `Arena.getAt?`, `Arena.assignAt?`: access to a frame.
* `Arena.find?`: the nearest frame outward that binds a name; `Arena.lookup?` and `Arena.assign?`
  read and write there.
-/

namespace Scriptlet

/-! ## Bindings -/

/-- Names with their values; a name occurs at most once. -/
abbrev Bindings : Type := List (String × Value)

/-- Binds a name, in place of its earlier value if it has one. -/
def Bindings.insert (name : String) (value : Value) : Bindings → Bindings
  | [] => [(name, value)]
  | (n, v) :: rest =>
    if n = name then (n, value) :: rest else (n, v) :: Bindings.insert name value rest

/-! ## Frames -/

/-- An environment. The default frame is what a free slot holds. -/
structure Frame where
  bindings : Bindings := []
  enclosing : Option Slot := none
  captured : Bool := false
  active : Bool := false
  live : Bool := false
deriving Inhabited

/-- The functions bound in a frame. -/
def Frame.closures (f : Frame) : List Closure := f.bindings.filterMap fun b => b.2.closure?

/-- The number of live frames at which the first collection happens. -/
def firstCollection : Nat := 64

/-- The frames of a program, the stack of free slots, and the functions to be looked after when
frames are collected. -/
structure Arena where
  frames : Array Frame
  free : Array Slot
  tracked : Array Closure
  /-- The number of live frames at which they are collected. -/
  collectAt : Nat
  /-- The number of tracked functions at which the dead ones among them are forgotten. -/
  pruneAt : Nat
deriving Inhabited

namespace Arena

/-- The slot of the globals. -/
def globals : Slot := 0

/-- An arena that holds the globals only. -/
def empty : Arena where
  frames := #[{ captured := true, active := true, live := true }]
  free := #[]
  tracked := #[]
  collectAt := firstCollection
  pruneAt := firstCollection

/-- The frame in a slot. -/
def frame (a : Arena) (s : Slot) : Frame := a.frames.getD s {}

/-- Changes the frame in a slot. -/
def modify (a : Arena) (s : Slot) (f : Frame → Frame) : Arena :=
  { a with frames := a.frames.modify s f }

/-- The number of slots that are not free. -/
def liveFrames (a : Arena) : Nat := a.frames.size - a.free.size

/-! ## Access to one frame -/

/-- Binds a name in a frame. -/
def define (a : Arena) (s : Slot) (name : String) (value : Value) : Arena :=
  a.modify s fun f => { f with bindings := f.bindings.insert name value }

/-- The value of a name in a frame. -/
def get? (a : Arena) (s : Slot) (name : String) : Option Value :=
  (a.frame s).bindings.lookup name

/-- The frame a number of frames outward. -/
def ancestor? (a : Arena) (s : Slot) : Nat → Option Slot
  | 0 => some s
  | distance + 1 =>
    match (a.frame s).enclosing with
    | none => none
    | some outer => a.ancestor? outer distance

/-- The value of a name in the frame a number of frames outward. -/
def getAt? (a : Arena) (s : Slot) (distance : Nat) (name : String) : Option Value :=
  (a.ancestor? s distance).bind (a.get? · name)

/-- Gives a new value to a name that a frame binds. -/
def set? (a : Arena) (s : Slot) (name : String) (value : Value) : Option Arena :=
  if (a.get? s name).isSome then some (a.define s name value) else none

/-- Gives a new value to a name in the frame a number of frames outward. -/
def assignAt? (a : Arena) (s : Slot) (distance : Nat) (name : String) (value : Value) :
    Option Arena :=
  (a.ancestor? s distance).bind (a.set? · name value)

/-! ## Search by name -/

/-- The nearest frame outward that binds a name, among the given number of frames. -/
def findFrom (a : Arena) (name : String) : Nat → Slot → Option Slot
  | 0, _ => none
  | n + 1, s =>
    if (a.get? s name).isSome then some s
    else
      match (a.frame s).enclosing with
      | none => none
      | some outer => a.findFrom name n outer

/-- The nearest frame outward that binds a name. No chain of frames is longer than the arena. -/
def find? (a : Arena) (s : Slot) (name : String) : Option Slot :=
  a.findFrom name a.frames.size s

/-- The value of a name, searched outward. -/
def lookup? (a : Arena) (s : Slot) (name : String) : Option Value :=
  (a.find? s name).bind (a.get? · name)

/-- Gives a new value to a name, searched outward. -/
def assign? (a : Arena) (s : Slot) (name : String) (value : Value) : Option Arena :=
  (a.find? s name).map (a.define · name value)

/-! ## Capture -/

/-- Marks frames as captured, outward, up to one that is captured already. -/
def captureFrom (a : Arena) : Nat → Slot → Arena
  | 0, _ => a
  | n + 1, s =>
    if (a.frame s).captured then a
    else
      let b := a.modify s fun f => { f with captured := true }
      match (a.frame s).enclosing with
      | none => b
      | some outer => b.captureFrom n outer

/-- Keeps a frame and all frames around it from being freed on release. -/
def capture (a : Arena) (s : Slot) : Arena := a.captureFrom a.frames.size s

/-- Adds a function to those to be looked after. -/
def note (a : Arena) (f : Closure) : Arena := { a with tracked := a.tracked.push f }

end Arena

end Scriptlet
