import Multistage.CommandLine

/-!
# The program

Reads the file that the command line names, and prints what comes of it.
-/

namespace Multistage

/-- The reason behind an error of the file system. -/
def Trouble.ofError : IO.Error → Trouble
  | .noFileOrDirectory .. => .notFound
  | .inappropriateType .. => .isDirectory
  | e => .other (toString e)

/-- The names on the way to a name. -/
def ancestors (name : String) : List String :=
  let components := name.splitOn "/"
  ((List.range components.length).drop 1).map fun count => "/".intercalate (components.take count)

/-- Whether a name denotes something that is no directory. -/
def isPlainFile (name : String) : IO Bool := do
  match ← (IO.FS.realPath name).toBaseIO with
  | .error _ => return false
  | .ok path => return !(← path.isDir)

/-- Why a name denotes nothing: there may be a file on the way to it. -/
def troubleAt (name : String) : IO Trouble := do
  if ← (ancestors name).anyM isPlainFile then return .notDirectory else return .notFound

/-- Read the program in a file. -/
def loadFile (name : String) : IO (Except LoadError Program) := do
  match ← (IO.FS.realPath name).toBaseIO with
  | .error _ => return .error (.unreadable name (← troubleAt name))
  | .ok path =>
    match ← (IO.FS.readBinFile path).toBaseIO with
    | .error e => return .error (.unreadable path.toString (.ofError e))
    | .ok bytes => return Program.ofBytes path.toString bytes

/-- Do what the arguments ask for. -/
def answer (arguments : List String) : IO (Option Answer) := do
  match Command.parse? arguments with
  | none => return some .usage
  | some command => return command.execute (← loadFile command.file)

end Multistage

open Multistage in
/-- Run one command. -/
def main (arguments : List String) : IO UInt32 := do
  match ← answer arguments with
  | none =>
    IO.eprintln "no report"
    return 101
  | some a =>
    IO.print a.output
    IO.eprint a.errors
    return a.exitCode
