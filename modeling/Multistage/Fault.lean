import Multistage.Term.Basic
import Multistage.Ty.Basic

/-!
# Faults

Everything that a pass can object to, with the node it objects to. Every pass stops at the first fault.

Main definitions: `Fault`, its `Fault.message`, `Fault.node?` and the `Phase` that reports it; and
`Obstacle`, a fault or a number that has outgrown its word.
-/

namespace Multistage

/-- Why a type does not fit. -/
inductive Mismatch where
  | assignment (name : String) (value target : Ty)
  | unaryOperand
  | binaryOperands
  | operands (op : BinaryOp) (lhs rhs : Ty)
  | notFunction (callee : Ty)
  | argumentCount (expected got : Nat)
  | argument (expected got : Ty)
  | misplaced (tag : Tag)
  | notElaborated
  | noMain
  /-- a reason in words -/
  | other (message : String)
  deriving DecidableEq, Inhabited, Repr

/-- Why a stage does not fit. -/
inductive StageClash where
  | assignment (name : String)
  | unaryOperand
  | binaryOperands
  | callee
  /-- a reason in words -/
  | other (message : String)
  deriving DecidableEq, Inhabited, Repr

/-- Why a snippet escape, or a quote that fills one, is not allowed. -/
inductive SnippetMisuse where
  | notVariable
  | notSnippetVariable (name : String)
  | alreadyFills (escape : NodeId)
  | containsItself
  /-- a reason in words -/
  | other (message : String)
  deriving DecidableEq, Inhabited, Repr

/-- A reason to refuse a program. -/
inductive Fault where
  | parse (location message : String)
  | undefinedVariable (node : NodeId) (name : String)
  | typeMismatch (node : NodeId) (reason : Mismatch)
  | stageMismatch (node : NodeId) (reason : StageClash)
  | topLevelEscape (node : NodeId)
  | nonCodeEscape (node : NodeId)
  | nonCodeRun (node : NodeId)
  | unknownType (node : NodeId) (name : String)
  /-- a name is used at an earlier stage than it is bound at -/
  | downwardReference (node : NodeId) (name : String)
  /-- no quote can fill a snippet escape -/
  | unfilledHole (escape : NodeId)
  | invalidSnippet (node : NodeId) (reason : SnippetMisuse)
  deriving DecidableEq, Inhabited, Repr

/-- The parts of the pipeline that report something. -/
inductive Phase where
  | parsing
  | typeChecking
  | desugaring
  | fragmentBuilding
  | variantGeneration
  | evaluation
  deriving DecidableEq, Inhabited, Repr

/-- The name of a phase in reports. -/
def Phase.text : Phase → String
  | .parsing => "Parsing"
  | .typeChecking => "TypeChecking"
  | .desugaring => "Desugaring"
  | .fragmentBuilding => "IrBuilding"
  | .variantGeneration => "VariantGeneration"
  | .evaluation => "Evaluation"

/-! ## Messages -/

/-- The reason in words. -/
def Mismatch.message : Mismatch → String
  | .assignment name value target =>
    "cannot assign " ++ value.text ++ " to " ++ name ++ " of type " ++ target.text
  | .unaryOperand => "unary operation on non-number"
  | .binaryOperands => "binary operation on non-numbers"
  | .operands op lhs rhs =>
    "invalid operands to " ++ op.symbol ++ ": " ++ lhs.text ++ " and " ++ rhs.text
  | .notFunction callee => "call to non-function " ++ callee.text
  | .argumentCount expected got =>
    "expected " ++ toString expected ++ " arguments, got " ++ toString got
  | .argument expected got => "expected argument of type " ++ expected.text ++ ", got " ++ got.text
  | .misplaced tag => tag.text ++ " node cannot appear in a checked program"
  | .notElaborated => "lookup was not elaborated"
  | .noMain => "main procedure went missing"
  | .other message => message

/-- The reason in words. -/
def StageClash.message : StageClash → String
  | .assignment name => "cannot assign to " ++ name ++ " from another stage"
  | .unaryOperand => "unary operation on wrong stage"
  | .binaryOperands => "binary operation on wrong stage"
  | .callee => "call to a function on the wrong stage"
  | .other message => message

/-- The reason in words. -/
def SnippetMisuse.message : SnippetMisuse → String
  | .notVariable => "snippet escape must name a variable"
  | .notSnippetVariable name => name ++ " is not a snippet variable"
  | .alreadyFills escape => "snippet quote already fills escape " ++ escape.text
  | .containsItself => "snippet escape is filled with code containing itself"
  | .other message => message

namespace Fault

/-- The text of a fault. -/
def message : Fault → String
  | .parse location message => "parse error at " ++ location ++ ": " ++ message
  | .undefinedVariable _ name => "type error: undefined variable " ++ name
  | .typeMismatch _ reason => "type error: " ++ reason.message
  | .stageMismatch _ reason => "type error: " ++ reason.message
  | .topLevelEscape _ => "type error: top-level escape"
  | .nonCodeEscape _ => "type error: escape produced non-code value"
  | .nonCodeRun _ => "type error: running a non-code type"
  | .unknownType _ name => "type error: unknown type " ++ name
  | .downwardReference _ name =>
    "staging error: " ++ name ++ " is referenced at a stage below its binding"
  | .unfilledHole escape => "snippet error: no quote can fill snippet escape " ++ escape.text
  | .invalidSnippet _ reason => "snippet error: " ++ reason.message

/-- The node that a fault is about. -/
def node? : Fault → Option NodeId
  | .parse .. => none
  | .undefinedVariable node _ | .typeMismatch node _ | .stageMismatch node _ | .topLevelEscape node
  | .nonCodeEscape node | .nonCodeRun node | .unknownType node _ | .downwardReference node _
  | .unfilledHole node | .invalidSnippet node _ => some node

/-- The phase that finds a fault. -/
def phase : Fault → Phase
  | .parse .. => .parsing
  | .downwardReference .. => .desugaring
  | .invalidSnippet .. => .fragmentBuilding
  | .unfilledHole .. => .variantGeneration
  | _ => .typeChecking

/-- Stop at a fault. -/
def raise {m : Type → Type} [MonadLiftT (Except Fault) m] {α : Type} (fault : Fault) : m α :=
  liftM (Except.error fault : Except Fault α)

end Fault

/-- Why a pass that counts in words of a fixed size comes to no result. -/
inductive Obstacle where
  | fault (fault : Fault)
  /-- the next number does not fit into a word -/
  | exhausted
  deriving DecidableEq, Inhabited, Repr

/-- A fault is an obstacle. -/
instance : MonadLift (Except Fault) (Except Obstacle) := ⟨Except.mapError .fault⟩

instance : LawfulMonadLift (Except Fault) (Except Obstacle) where
  monadLift_pure _ := rfl
  monadLift_bind x _ := by cases x <;> rfl

end Multistage
