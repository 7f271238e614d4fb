import Multistage.Pipeline.Stage

/-!
# Reports on a source

`Source.check`, `Source.run` and `Source.compile` take a source through the stages. The diagnostics of
a report are those of all stages on the way, the last stage first. There is no report if one of the stages
has no outcome.
-/

namespace Multistage

/-- The type of a program. -/
structure CheckReport where
  type : Option String
  diagnostics : List Diagnostic
  deriving DecidableEq, Inhabited, Repr

/-- The value of a program. -/
structure RunReport where
  value : Option String
  diagnostics : List Diagnostic
  printed : String
  deriving DecidableEq, Inhabited, Repr

/-- The units and the variants of a program. -/
structure CompileReport where
  blueprint : Option Blueprint
  variants : Option VariantTable
  diagnostics : List Diagnostic
  deriving Inhabited, Repr

namespace Source

/-- The text of the type of an elaborated program. -/
def typeText (e : Option Elaboration) : Option String := (e.bind (·.rootType?)).map (·.text)

/-- Check a program. -/
def check (s : Source) : Option CheckReport := do
  let elaborated ← s.elaborate
  return ⟨typeText elaborated.value, elaborated.diagnostics⟩

/-- Evaluate a program. -/
def run (s : Source) : Option RunReport := do
  let elaborated ← s.elaborate
  let explicit ← s.makeExplicit elaborated.value
  let result ← s.evaluate explicit.value
  return ⟨result.value, result.diagnostics ++ explicit.diagnostics ++ elaborated.diagnostics,
    result.printed⟩

/-- Compile a program. -/
def compile (s : Source) : Option CompileReport := do
  let elaborated ← s.elaborate
  let explicit ← s.makeExplicit elaborated.value
  let judged ← s.judgeExplicit explicit.value
  let blueprint ← s.split judged.value
  let variants ← s.fillHoles blueprint.value
  return ⟨blueprint.value, variants.value,
    variants.diagnostics ++ blueprint.diagnostics ++ judged.diagnostics ++ explicit.diagnostics ++
      elaborated.diagnostics⟩

end Source

end Multistage
