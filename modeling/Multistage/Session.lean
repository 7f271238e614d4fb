import Multistage.Session.Files
import Multistage.Session.Memo

/-!
# Sessions

A session holds numbered sources, which can be edited and reported on in any order, and the files to load
sources from.

* `Session.load` reads every file at most once for each mode: a later load of the same path gives the
  same source. A load that fails leaves no trace.
* `Session.check`, `Session.run` and `Session.compile` report on a source by means of what is
  remembered about it; `Session.run` prints only if the program is evaluated again.
-/

namespace Multistage

/-- Sources, files, and the time in revisions. -/
structure Session where
  files : Files
  /-- the current revision -/
  now : Nat := 1
  cells : List Cell := []
  /-- the sources that were loaded, by path and mode -/
  loaded : List ((Path × Mode) × Nat) := []
  deriving Inhabited

namespace Session

/-! ## Sources -/

def add (s : Session) (source : Source) : Nat × Session :=
  let cell : Cell := { source, programAt := s.now, modeAt := s.now }
  (s.cells.length, { s with cells := s.cells ++ [cell] })

/-- The source that was loaded from a path. -/
def loaded? (s : Session) (path : Path) (mode : Mode) : Option Nat :=
  (s.loaded.find? (·.1 = (path, mode))).map (·.2)

/-- Load the file of a name: the number and the path of its source. -/
def load (s : Session) (name : String) (mode : Mode) : Except LoadError (Nat × Path) × Session :=
  match s.files.locate name with
  | .error e => (.error e, s)
  | .ok path =>
    match s.loaded? path mode with
    | some index => (.ok (index, path), s)
    | none =>
      match s.files.program path with
      | .error e => (.error e, s)
      | .ok program =>
        let (index, s) := s.add ⟨program, mode⟩
        (.ok (index, path), { s with loaded := ((path, mode), index) :: s.loaded })

/-- Edit a source, in a new revision. -/
def edit (s : Session) (index : Nat) (f : Nat → Cell → Cell) : Session :=
  let now := s.now + 1
  { s with now := now, cells := s.cells.modify index (f now) }

/-- Replace the program of a source. -/
def setProgram (s : Session) (index : Nat) (program : Program) : Session :=
  s.edit index fun now c => { c with source.program := program, programAt := now }

/-- Replace the mode of a source. -/
def setMode (s : Session) (index : Nat) (mode : Mode) : Session :=
  s.edit index fun now c => { c with source.mode := mode, modeAt := now }

/-! ## Reports -/

/-- Report on a source; nothing if there is no such source or one of the stages has no outcome. -/
def report {α : Type} (s : Session) (index : Nat) (f : Cell → Option (α × Cell)) :
    Option (α × Session) := do
  let cell ← s.cells[index]?
  let (a, cell) ← f cell
  return (a, { s with cells := s.cells.set index cell })

/-- Check a source. -/
def check (s : Session) (index : Nat) : Option (CheckReport × Session) :=
  s.report index fun c => do
    let (elaborated, c) ← Stage.elaborate.refresh s.now c
    return (⟨Source.typeText elaborated.outcome.value, Stage.elaborate.diagnostics c⟩, c)

/-- Evaluate a source. Nothing is printed if the result is remembered. -/
def run (s : Session) (index : Nat) : Option (RunReport × Session) :=
  s.report index fun c => do
    let (result, c) ← Stage.evaluate.refresh s.now { c with result := c.result.map Memo.silenced }
    return (⟨result.outcome.value, Stage.evaluate.diagnostics c, result.outcome.printed⟩, c)

/-- Compile a source. -/
def compile (s : Session) (index : Nat) : Option (CompileReport × Session) :=
  s.report index fun c => do
    let (variants, c) ← Stage.fillHoles.refresh s.now c
    let (blueprint, c) ← Stage.split.refresh s.now c
    return (⟨blueprint.outcome.value, variants.outcome.value, Stage.fillHoles.diagnostics c⟩, c)

end Session

end Multistage
