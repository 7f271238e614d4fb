import Multistage.Loading

/-!
# Files

What loading programs needs of the files at some moment: which path a name denotes, and the bytes at a path.
Both can be any functions. A name may start anywhere and lead through links, and reading may fail for any
reason.
-/

namespace Multistage

/-- The path of a file, the same for all names of the file. -/
abbrev Path := String

/-- The files at some moment. -/
structure Files where
  /-- the path of what a name denotes -/
  canonicalize : (name : String) → Except Trouble Path
  /-- the bytes at a path -/
  read : Path → Except Trouble ByteArray
  deriving Inhabited

namespace Files

/-- The path of what a name denotes. If it denotes nothing the error tells the name. -/
def locate (fs : Files) (name : String) : Except LoadError Path :=
  (fs.canonicalize name).mapError (.unreadable name)

/-- Read the program at a path. -/
def program (fs : Files) (path : Path) : Except LoadError Program := do
  let bytes ← (fs.read path).mapError (.unreadable path)
  Program.ofBytes path bytes

/-- Read the program that a name denotes. -/
def load (fs : Files) (name : String) : Except LoadError Program := fs.locate name >>= fs.program

end Files

end Multistage
