import Multistage.Ty.Prelude

/-!
# Typing rules

One function for each rule that can fail: it takes the types of the parts and gives the type of the
whole, or the fault. The traversal that applies the rules is in `Multistage.Typing.Check`.

The rules that move stages or levels take a `Counting`. It is `Counting.word` where programs are run and
compiled, and `Counting.unbounded` for their theory.
-/

namespace Multistage

/-- The names in scope at a node, and how many quotes are around it. -/
structure Context where
  scope : Scope Binding := {}
  level : Nat := 0
  deriving DecidableEq, Inhabited, Repr

namespace Context

/-- The same level with another scope. -/
def withScope (c : Context) (scope : Scope Binding) : Context := { c with scope := scope }

/-- The context inside a quote: types of outer names move one stage down. -/
def quoted (c : Context) : Context := ⟨c.scope.shift (-1), c.level + 1⟩

/-- The context inside an escape: types of outer names move one stage up. -/
def escaped (c : Context) : Context := ⟨c.scope.shift 1, c.level - 1⟩

/-- Bind a name at the level of the context. -/
def bind (c : Context) (scope : Scope Binding) (name : String) (type : Ty) : Scope Binding :=
  scope.extend name ⟨type, c.level⟩

/-- The scope of a function's body. -/
def bindAll (c : Context) (params : List (String × Ty)) : Scope Binding :=
  c.scope.extendAll (params.map fun (name, type) => (name, ⟨type, c.level⟩))

end Context

/-- Whether the levels of a context are words of 32 bits, and the stages of its types signed ones. -/
def Context.fits (c : Context) : Bool :=
  c.level < UInt32.size &&
    c.scope.frames.all fun frame => frame.all fun entry => entry.2.level < UInt32.size && entry.2.type.fits

/-- How stages and levels are counted: the stages between two levels, and the types and contexts that there
are. -/
structure Counting (ε : Type) where
  gap : (outer inner : Nat) → Int
  type : Ty → Except ε Ty
  context : Context → Except ε Context

namespace Counting

/-- Counting without a bound. -/
def unbounded : Counting Fault where
  gap outer inner := inner - outer
  type := .ok
  context := .ok

/-- Counting in words of 32 bits, signed ones for stages. A difference of levels that is too large for a
signed word wraps around; an addition that would leave the words is an obstacle. -/
def word : Counting Obstacle where
  gap outer inner := Int.bmod (inner - outer) UInt32.size
  type τ := if τ.fits then .ok τ else .error .exhausted
  context c := if c.fits then .ok c else .error .exhausted

theorem word_gap (outer inner : Nat) : word.gap outer inner = Int.bmod (inner - outer) UInt32.size := rfl

theorem word_type (τ : Ty) : word.type τ = if τ.fits then .ok τ else .error .exhausted := rfl

theorem word_context (c : Context) : word.context c = if c.fits then .ok c else .error .exhausted := rfl

end Counting

def Literal.type : Literal → Ty
  | .int _ => .int
  | .float _ => .float
  | .string _ => .string

namespace Prelude

section Counted

variable {ε : Type} [MonadLiftT (Except Fault) (Except ε)] (p : Prelude) (count : Counting ε)

/-- The type of a name. A name bound under fewer quotes has the type that it was bound with. -/
def lookupWith (c : Context) (node : NodeId) (name : String) : Except ε Ty :=
  match c.scope.lookup? name with
  | some binding =>
    count.type (if binding.level < c.level then binding.type.shift (count.gap binding.level c.level)
      else binding.type)
  | none =>
    match p.intrinsics.get? name with
    | some type => count.type type
    | none => (Fault.undefinedVariable node name).raise

/-- The types of parameters; without annotation a parameter is an integer. -/
def paramsWith (node : NodeId) (params : List Param) : Except ε (List (String × Ty)) :=
  params.mapM fun param =>
    match param.type with
    | some written => do return (param.name, ← p.resolveWith count.type node written)
    | none => return (param.name, .int)

end Counted

/-- The type of a name, at any level. -/
def lookupRule (p : Prelude) (c : Context) (node : NodeId) (name : String) : Except Fault Ty :=
  p.lookupWith .unbounded c node name

section Lookup

variable {p : Prelude} {c : Context} {node : NodeId} {name : String}

theorem lookupRule_bound {b : Binding} (h : c.scope.lookup? name = some b) : p.lookupRule c node name =
    .ok (if b.level < c.level then b.type.shift (c.level - b.level) else b.type) := by
  rw [lookupRule, lookupWith, h]
  rfl

theorem lookupRule_unbound (h : c.scope.lookup? name = none) : p.lookupRule c node name =
    match p.intrinsics.get? name with
    | some type => .ok type
    | none => .error (.undefinedVariable node name) := by
  rw [lookupRule, lookupWith, h]
  rfl

end Lookup

/-- The types of parameters, at any stage. -/
def paramRule (p : Prelude) (node : NodeId) (params : List Param) : Except Fault (List (String × Ty)) :=
  p.paramsWith .unbounded node params

/-- The type that a name can be assigned. Only names of the same level can be. -/
def targetRule (p : Prelude) (c : Context) (node : NodeId) (name : String) : Except Fault Ty :=
  match c.scope.lookup? name with
  | some binding =>
    if binding.level = c.level then .ok binding.type
    else .error (.stageMismatch node (.assignment name))
  | none =>
    match p.intrinsics.get? name with
    | some type => .ok type
    | none => .error (.undefinedVariable node name)

/-- An assignment must keep the type of its target. -/
def assignRule (p : Prelude) (c : Context) (node : NodeId) (name : String) (value : Ty) :
    Except Fault Unit := do
  let target ← p.targetRule c node name
  if target = value then return ()
  else throw (.typeMismatch node (.assignment name value target))

end Prelude

/-- The operand of a negation is a number of stage 0. -/
def unaryRule (node : NodeId) (operand : Ty) : Except Fault Ty :=
  if operand.stage ≠ 0 then .error (.stageMismatch node .unaryOperand)
  else if operand.isNumeric then .ok operand
  else .error (.typeMismatch node .unaryOperand)

/-- Arithmetic on numbers of stage 0: integers if both are, floats otherwise. -/
def numericRule (node : NodeId) (lhs rhs : Ty) : Except Fault Ty :=
  if lhs.stage ≠ 0 ∨ rhs.stage ≠ 0 then .error (.stageMismatch node .binaryOperands)
  else
    match lhs, rhs with
    | .base .int _, .base .int _ => .ok .int
    | lhs, rhs =>
      if lhs.isNumeric && rhs.isNumeric then .ok .float
      else .error (.typeMismatch node .binaryOperands)

/-- The number of rows and columns of a square matrix type. -/
def matrixWidth? : String → Option Nat
  | "Mat3" => some 3
  | "Mat4" => some 4
  | _ => none

/-- The number of components of a vector type that a matrix can transform. -/
def vectorWidth? : String → Option Nat
  | "Float3" => some 3
  | "Float4" => some 4
  | _ => none

/-- Arithmetic on opaque types: equal types combine by component, a matrix transforms a vector of its
width, and a number scales either. -/
def componentRule? (op : BinaryOp) (lhs rhs : Ty) : Option Ty :=
  match lhs, rhs with
  | .base (.prim a) _, .base (.prim b) _ =>
    if a = b then some lhs
    else if op = .mul ∧ (matrixWidth? a).isSome ∧ matrixWidth? a = vectorWidth? b then some rhs
    else none
  | .base .float _, .base (.prim _) _ => if op = .mul then some rhs else none
  | .base (.prim _) _, .base .float _ => if op = .mul ∨ op = .div then some lhs else none
  | _, _ => none

/-- Arithmetic in shaders: the numeric rule for two numbers, the rules by component otherwise. -/
def shaderRule (node : NodeId) (op : BinaryOp) (lhs rhs : Ty) : Except Fault Ty :=
  if lhs.isNumeric && rhs.isNumeric then numericRule node lhs rhs
  else if lhs.stage ≠ 0 ∨ rhs.stage ≠ 0 then .error (.stageMismatch node .binaryOperands)
  else
    match componentRule? op lhs rhs with
    | some type => .ok type
    | none => .error (.typeMismatch node (.operands op lhs rhs))

/-- Arithmetic in a mode. -/
def binaryRule (mode : Mode) (node : NodeId) (op : BinaryOp) (lhs rhs : Ty) : Except Fault Ty :=
  match mode with
  | .general => numericRule node lhs rhs
  | .shader => shaderRule node op lhs rhs

/-- A carried value keeps its type; any other escape must produce code. -/
def escapeRule (node : NodeId) (kind : EscapeKind) (body : Ty) : Except Fault Ty :=
  match kind with
  | .persist => .ok body
  | .splice | .snippet => if body.stage < 1 then .error (.nonCodeEscape node) else .ok (body.shift (-1))

/-- Only code can be run. -/
def runRule (node : NodeId) (body : Ty) : Except Fault Ty :=
  if body.isCode then .ok (body.shift (-1)) else .error (.nonCodeRun node)

/-- The first argument whose type is not that of its parameter. -/
def argumentRule (node : NodeId) : List Ty → List Ty → Except Fault Unit
  | param :: params, arg :: args =>
    if param = arg then argumentRule node params args
    else .error (.typeMismatch node (.argument param arg))
  | _, _ => .ok ()

/-- A callee is a function of stage 0 with as many parameters as there are arguments, of their types. -/
def callRule (node : NodeId) (callee : Ty) (args : List Ty) : Except Fault Ty :=
  if callee.stage ≠ 0 then .error (.stageMismatch node .callee)
  else
    match callee with
    | .base .. => .error (.typeMismatch node (.notFunction callee))
    | .arrow params result _ =>
      if params.length ≠ args.length then
        .error (.typeMismatch node (.argumentCount params.length args.length))
      else do
        argumentRule node params args
        return result

end Multistage
