import Dynascope.Scope.Bindings

/-!
# Frames

Variables live in frames. A name is defined in the current frame and looked up from the current
frame down to the global one, through the frames of all calls: scope is dynamic.

* `Frame`: a name and its variables.
* `Frames`: the global frame and the frames above it. There is always a global frame.
* `Frames.define?`, `Frames.get?`, `Frames.assign?`: the operations on variables.
-/

namespace Dynascope

/-- The variables of a scope. -/
structure Frame (V : Type) where
  name : Text
  vars : Bindings V
  deriving Repr, DecidableEq

namespace Frame

variable {V : Type}

/-- A frame without variables. -/
def empty (name : Text) : Frame V :=
  ⟨name, .empty⟩

/-- A frame with one more variable, or one with a new value. -/
def set (f : Frame V) (name : Text) (value : V) : Frame V :=
  { f with vars := f.vars.set name value }

/-- The text of a frame: its name and the number of its variables. -/
def text (f : Frame V) : Text :=
  ("<mem " : Text) ++ f.name ++ (" #" : Text) ++ Text.ofNat f.vars.size ++ (">" : Text)

end Frame

/-- The frames: the global one and those above it, the current one first. -/
structure Frames (V : Type) where
  inner : List (Frame V)
  globals : Frame V
  deriving Repr, DecidableEq

namespace Frames

variable {V : Type}

/-- A global frame without variables. -/
def new : Frames V :=
  ⟨[], .empty "global"⟩

/-- The frames from the current one down to the global one. -/
def toList (fs : Frames V) : List (Frame V) :=
  fs.inner ++ [fs.globals]

/-- The number of frames. -/
def depth (fs : Frames V) : Nat :=
  fs.inner.length + 1

/-- The current frame. -/
def current (fs : Frames V) : Frame V :=
  fs.inner.head?.getD fs.globals

/-- Puts an empty frame on top. -/
def push (fs : Frames V) (name : Text) : Frames V :=
  { fs with inner := .empty name :: fs.inner }

/-- The text for an attempt to take the global frame off. -/
def popGlobalMessage : Text :=
  "attempt to pop global memory frame"

/-- Takes the current frame off, unless it is the global one. -/
def pop? (fs : Frames V) : Option (Frame V × Frames V) :=
  match fs.inner with
  | [] => none
  | f :: rest => some (f, { fs with inner := rest })

/-- Takes the current frame off; the global one stays. -/
def pop (fs : Frames V) : Frames V :=
  { fs with inner := fs.inner.tail }

/-- Defines a name in the current frame. The empty name cannot be defined. -/
def define? (fs : Frames V) (name : Text) (value : V) : Option (Frames V) :=
  if name.isEmpty then none
  else
    match fs.inner with
    | [] => some { fs with globals := fs.globals.set name value }
    | f :: rest => some { fs with inner := f.set name value :: rest }

/-- The value of a name: that of the topmost frame which defines it. -/
def get? (fs : Frames V) (name : Text) : Option V :=
  fs.toList.findSome? fun f => f.vars.get? name

/-- Gives a new value to the topmost definition of a name, if there is one. -/
def assignInner? (name : Text) (value : V) : List (Frame V) → Option (List (Frame V))
  | [] => none
  | f :: rest =>
    if f.vars.contains name then some (f.set name value :: rest)
    else (assignInner? name value rest).map (f :: ·)

/-- Gives a new value to the topmost definition of a name; none if no frame defines it. -/
def assign? (fs : Frames V) (name : Text) (value : V) : Option (Frames V) :=
  match assignInner? name value fs.inner with
  | some inner => some { fs with inner := inner }
  | none =>
    if fs.globals.vars.contains name then some { fs with globals := fs.globals.set name value }
    else none

end Frames

end Dynascope
