import Multistage.Loading
import Multistage.Pipeline.Report

/-!
# The command line

`check`, `run` or `compile`, then a file and the option `--shader`.

`Command.parse?` reads the arguments, `Command.execute` does what they ask for with the program that was
loaded, and the `Answer` says what to print and how to exit.
-/

namespace Multistage

/-- What to do with a program. -/
inductive Action where
  | check
  | run
  | compile
  deriving DecidableEq, Inhabited, Repr

/-- The action that a word stands for. -/
def Action.ofWord? : String → Option Action
  | "check" => some .check
  | "run" => some .run
  | "compile" => some .compile
  | _ => none

/-- One use of the command line. -/
structure Command where
  action : Action
  file : String
  mode : Mode
  deriving DecidableEq, Inhabited, Repr

namespace Command

/-- The arguments that are not options, and how often the option was given. After two dashes nothing is
an option; a single dash is none either. -/
def operands? : List String → Option (List String × Nat)
  | [] => some ([], 0)
  | "--" :: rest => some (rest, 0)
  | argument :: rest => do
    let (files, marks) ← operands? rest
    if argument = "--shader" then some (files, marks + 1)
    else if argument.startsWith "-" && argument ≠ "-" then none
    else some (argument :: files, marks)

/-- Read the arguments: an action and one file, and the option at most once. -/
def parse? : List String → Option Command
  | [] => none
  | word :: rest => do
    let action ← Action.ofWord? word
    match ← operands? rest with
    | ([file], 0) => if file.isEmpty then none else some ⟨action, file, .general⟩
    | ([file], 1) => if file.isEmpty then none else some ⟨action, file, .shader⟩
    | _ => none

end Command

/-! ## Listings -/

/-- Text on a line of its own. -/
def line (text : String) : String := text ++ "\n"

/-- A variant of a fragment: the snippets chosen and the code that results. -/
def Variant.listing (v : Variant) : String :=
  line ("variant [" ++ ", ".intercalate (v.config.map (·.text)) ++ "]:") ++
    match v.fragments.get? v.fragment with
    | some f => line ("  " ++ f.body.text)
    | none => ""

def Fragment.heading (f : Fragment) : String :=
  "=== prog " ++ f.id.text ++ ((f.label.map (" (" ++ · ++ ")")).getD "") ++
    ((f.fills.map (" fills " ++ ·.text)).getD "") ++ " ==="

/-- How many escapes and names a fragment has. -/
def Fragment.summary (f : Fragment) : String :=
  "persist: " ++ toString f.persist.length ++ ", splice: " ++ toString f.splice.length ++
    ", free: " ++ toString f.free.length ++ ", bound: " ++ toString f.bound.length

/-- A fragment with its variants. -/
def Fragment.listing (variants : VariantTable) (f : Fragment) : String :=
  line f.heading ++ line f.body.text ++ line f.summary ++
    String.join ((((variants.get? f.id).join).getD []).map (·.listing))

/-- All units of a program: the main procedure, the other procedures, the fragments. -/
def Blueprint.listing (b : Blueprint) (variants : VariantTable) : String :=
  line "=== main ===" ++ line b.main.body.text ++
    String.join (b.procedures.values.map fun p =>
      line ("=== proc " ++ p.id.text ++ " ===") ++ line p.body.text) ++
    String.join (b.fragments.values.map (·.listing variants))

/-! ## Answers -/

/-- What comes of a command. -/
inductive Answer where
  /-- the arguments make no sense -/
  | usage
  | notLoaded (error : LoadError)
  | done (output : String) (diagnostics : List Diagnostic)
  deriving DecidableEq, Inhabited, Repr

namespace Answer

/-- The text for standard output. -/
def output : Answer → String
  | .done output _ => output
  | _ => ""

/-- The text for standard error. -/
def errors : Answer → String
  | .usage => line "usage: (check | run | compile) FILE [--shader]"
  | .notLoaded e => line e.message
  | .done _ diagnostics => String.join (diagnostics.map fun d => line d.text)

/-- The exit code: one if there is an error, two if the arguments make no sense. -/
def exitCode : Answer → UInt32
  | .usage => 2
  | .notLoaded _ => 1
  | .done _ diagnostics => if diagnostics.any (·.severity = .error) then 1 else 0

end Answer

/-- Do what the command asks for; no answer if there is no report. -/
def Command.execute (c : Command) : Except LoadError Program → Option Answer
  | .error e => some (.notLoaded e)
  | .ok program =>
    let source : Source := ⟨program, c.mode⟩
    match c.action with
    | .check => do
      let r ← source.check
      return .done ((r.type.map line).getD "") r.diagnostics
    | .run => do
      let r ← source.run
      return .done (r.printed ++ (r.value.map line).getD "") r.diagnostics
    | .compile => do
      let r ← source.compile
      match r.blueprint, r.variants with
      | some b, some variants => return .done (b.listing variants) r.diagnostics
      | _, _ => return .done "" r.diagnostics

end Multistage
