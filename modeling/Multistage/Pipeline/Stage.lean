import Multistage.CrossStage
import Multistage.Eval.Interpreter
import Multistage.Fragment.Survey
import Multistage.Fragment.Variant

/-!
# Stages of the pipeline

A source goes through the stages

* `Source.elaborate`: judge every node;
* `Source.makeExplicit`: make references across stages explicit;
* `Source.judgeExplicit`: judge the nodes again, with the escapes that were added;
* `Source.split`: find fragments and procedures;
* `Source.fillHoles`: generate the variants of fragments;

and after the second of them it can also be evaluated (`Source.evaluate`).

A stage is given the value of the stage before it. If that has none, the stage has none either and says
nothing. If the stage fails itself, it has no value and one diagnostic. An `Outcome` also tells which
parts of the source were looked at. A stage in which a number outgrows its word, and an evaluation that
never ends, have no outcome.
-/

namespace Multistage

/-- How bad a diagnostic is. -/
inductive Severity where
  | error
  | warning
  deriving DecidableEq, Inhabited, Repr

/-- The name of a severity. -/
def Severity.text : Severity → String
  | .error => "ERROR"
  | .warning => "WARNING"

/-- Something to tell the author of a program. -/
structure Diagnostic where
  message : String
  span : Span := {}
  severity : Severity
  phase : Phase
  deriving DecidableEq, Inhabited, Repr

/-- A diagnostic on one line. -/
def Diagnostic.text (d : Diagnostic) : String :=
  "[" ++ d.severity.text ++ "] " ++ d.phase.text ++ " at " ++ toString d.span.start.toNat ++ ".." ++
    toString d.span.stop.toNat ++ ": " ++ d.message

/-- A program and what it is written for. -/
structure Source where
  program : Program
  mode : Mode := .general
  deriving Inhabited, Repr

/-- What a stage has found out. -/
structure Outcome (α : Type) where
  value : Option α
  diagnostics : List Diagnostic := []
  /-- whether the stage depends on the mode -/
  readsMode : Bool := false
  /-- whether the stage depends on the program as it was written -/
  readsProgram : Bool := false
  /-- what was printed on the way -/
  printed : String := ""
  deriving Inhabited, Repr

/-- A stage that has nothing to work on. -/
def Outcome.skipped {α : Type} : Outcome α := { value := none }

namespace Source

/-- The source position of a node. Nodes that later stages have added have none. -/
def spanOf (s : Source) (node : Option NodeId) : Span :=
  ((node.bind fun id => s.program.root.find? id).map (·.span)).getD {}

def diagnose (s : Source) (fault : Fault) : Diagnostic where
  message := fault.message
  span := s.spanOf fault.node?
  severity := .error
  phase := fault.phase

/-- What comes of a pass: its result, or its fault as a diagnostic, with the position of the node. There is no
outcome if a number has outgrown its word. -/
def conclude {α : Type} (s : Source) (readsMode readsProgram : Bool) : Except Obstacle α → Option (Outcome α)
  | .ok a => some { value := some a, readsMode, readsProgram }
  | .error (.fault fault) =>
    some { value := none, diagnostics := [s.diagnose fault], readsMode, readsProgram := true }
  | .error .exhausted => none

/-- Judge every node of the program as it was written. -/
def elaborate (s : Source) : Option (Outcome Elaboration) :=
  s.conclude true true ((Prelude.ofMode s.mode).elaborate32 s.program.root)

/-- Make references across stages explicit. -/
def makeExplicit (s : Source) : Option Elaboration → Option (Outcome Program)
  | none => some .skipped
  | some e => s.conclude false true (Program.makeExplicit ⟨e.term, s.program.supply⟩ e.table)

/-- Judge the nodes of the explicit program. -/
def judgeExplicit (s : Source) : Option Program → Option (Outcome Elaboration)
  | none => some .skipped
  | some program => s.conclude true false ((Prelude.ofMode s.mode).elaborate32 program.root)

/-- The warning about a snippet that fills no hole. -/
def unusedSnippet (s : Source) (f : Fragment) : Diagnostic where
  message := "snippet quote " ++ f.id.text ++ " fills no snippet escape"
  span := s.spanOf (some f.id)
  severity := .warning
  phase := .fragmentBuilding

/-- Find the units of the explicit program, with a warning for each snippet that fills no hole. -/
def split (s : Source) : Option Elaboration → Option (Outcome Blueprint)
  | none => some .skipped
  | some e =>
    match Blueprint.ofTerm e.term e.table with
    | .ok b =>
      let unused := b.fragments.values.filter fun f => f.snippet && f.fills.isNone
      some { value := some b, diagnostics := unused.map s.unusedSnippet, readsProgram := !unused.isEmpty }
    | .error fault => s.conclude false true (.error (.fault fault))

/-- Generate the variants of all fragments. -/
def fillHoles (s : Source) : Option Blueprint → Option (Outcome VariantTable)
  | none => some .skipped
  | some b => s.conclude false false ((variantTable b.fragments).mapError .fault)

/-- The diagnostic for an evaluation that has failed. -/
def failed (failure : Failure) : Diagnostic where
  message := "runtime error: " ++ failure.message
  severity := .error
  phase := .evaluation

/-- Evaluate the explicit program; the value is the text of the result. There is no outcome if evaluation does
not come to an end. -/
def evaluate (_ : Source) : Option Program → Option (Outcome String)
  | none => some .skipped
  | some program =>
    match (interpret ampleFuel program.root).run {} with
    | .ok v m => some { value := some v.text, printed := m.printed }
    | .error (.failure failure) m =>
      some { value := none, diagnostics := [failed failure], printed := m.printed }
    | .error .outOfFuel _ => none

end Source

end Multistage
