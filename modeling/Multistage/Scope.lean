/-!
# Scopes

A scope maps names to values. It is a stack of frames, newest first; a frame holds bindings that were
added together, oldest first. A later binding hides an earlier one of the same name, inside a frame as
well as between frames.

Main definitions: `Scope.extend`, `Scope.extendAll`, `Scope.map`, and the two views of a scope as a
finite map, `Scope.lookup?` and `Scope.bindings`.
-/

namespace Multistage

/-- A stack of frames of bindings. -/
structure Scope (α : Type) where
  frames : List (List (String × α)) := []
  deriving DecidableEq, Inhabited, Repr

namespace Scope

variable {α β : Type}

/-- The scope without bindings. -/
def empty : Scope α := ⟨[]⟩

/-- Add a frame. -/
def extendAll (s : Scope α) (frame : List (String × α)) : Scope α := ⟨frame :: s.frames⟩

/-- Add a frame of one binding. -/
def extend (s : Scope α) (name : String) (value : α) : Scope α := s.extendAll [(name, value)]

/-- The value that a name has in a list of bindings, newest first. -/
def newest? (name : String) : List (String × α) → Option α
  | [] => none
  | (bound, value) :: rest => if bound = name then some value else newest? name rest

/-- The value of a name: the last binding of it in the newest frame that has one. -/
def lookup? (s : Scope α) (name : String) : Option α :=
  s.frames.findSome? fun frame => newest? name frame.reverse

/-- Whether a name is bound. -/
def contains (s : Scope α) (name : String) : Bool := (s.lookup? name).isSome

/-- Leave out bindings whose names are in `seen` or stand earlier in the list. -/
def visible (seen : List String) : List (String × α) → List (String × α)
  | [] => []
  | (name, value) :: rest =>
    if name ∈ seen then visible seen rest else (name, value) :: visible (name :: seen) rest

/-- Every binding that is not hidden, newest first. -/
def bindings (s : Scope α) : List (String × α) := visible [] (s.frames.flatMap List.reverse)

/-- Apply `f` to every value, hidden or not. -/
def map (f : α → β) (s : Scope α) : Scope β :=
  ⟨s.frames.map fun frame => frame.map fun (name, value) => (name, f value)⟩

end Scope

end Multistage
