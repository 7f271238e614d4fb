import Multistage.Eval.Value

/-!
# Evaluation

A term is evaluated in a scope of slots, with the values that its held references stand for. A quote
evaluates to code: its body, in which the escapes that belong to the quote have been carried out. A
splice inlines the code that its body evaluates to, a persist escape keeps a value and leaves a
reference to it. `run` evaluates code in an empty scope.

Evaluation need not end, so `eval` takes fuel, and running out of it is apart from every failure of the
program. Slots and printed text live in a `Machine`.

Main definitions: `Eval.eval`, `Eval.build` for the body of a quote, `Eval.apply`, and `interpret`.
-/

namespace Multistage

/-- The state of evaluation. -/
structure Machine where
  /-- the values of variables -/
  slots : Array Value := #[]
  /-- how many closures have been created -/
  closures : Nat := 0
  /-- all that has been printed -/
  printed : String := ""
  deriving Inhabited, Repr

/-- Why evaluation has no value. -/
inductive Stop where
  | failure (failure : Failure)
  | outOfFuel
  deriving DecidableEq, Inhabited, Repr

/-- A computation on a machine. -/
abbrev Eval := EStateM Stop Machine

/-- Move the held references of a term up by `offset`. -/
def Term.shiftHeld (offset : Nat) : Term → Term :=
  fold fun t children =>
    match t with
    | .held site index => .held site (index + offset)
    | t => t.withChildren children

namespace Eval

/-- Stop with a failure. -/
def fail {α : Type} (failure : Failure) : Eval α := throw (.failure failure)

def allocate (v : Value) : Eval Slot :=
  modifyGet fun m => (m.slots.size, { m with slots := m.slots.push v })

/-- New slots for several values. -/
def allocateAll : List Value → Eval (List Slot)
  | [] => return []
  | v :: rest => do
    let slot ← allocate v
    let slots ← allocateAll rest
    return slot :: slots

def read (slot : Slot) : Eval Value := do
  let m ← get
  return m.slots.getD slot .void

/-- Change the value in a slot. -/
def write (slot : Slot) (v : Value) : Eval Unit :=
  modify fun m => { m with slots := m.slots.setIfInBounds slot v }

/-- A number for a new closure. -/
def nextSerial : Eval Nat := modifyGet fun m => (m.closures, { m with closures := m.closures + 1 })

/-- Print values, each on a line. -/
def print (vs : List Value) : Eval Unit :=
  modify fun m => { m with printed := vs.foldl (fun out v => out ++ v.printed ++ "\n") m.printed }

/-! ## Arithmetic and host functions -/

/-- A number as a float. -/
def asFloat : Value → Eval Float
  | .int n => return Float.ofInt n.toInt
  | .float x => return x
  | v => fail (.unexpected .number v.shape)

/-- Arithmetic on integers wraps around; division rounds toward zero. -/
def intArithmetic (op : BinaryOp) (a b : Int64) : Eval Int64 :=
  match op with
  | .add => return a + b
  | .sub => return a - b
  | .mul => return a * b
  | .div => if b = 0 then fail .divisionByZero else return a / b

def floatArithmetic (op : BinaryOp) (a b : Float) : Float :=
  match op with
  | .add => a + b
  | .sub => a - b
  | .mul => a * b
  | .div => a / b

/-- Arithmetic on two numbers: on integers if both are, on floats otherwise. -/
def arithmetic (op : BinaryOp) : Value → Value → Eval Value
  | .int a, .int b => return .int (← intArithmetic op a b)
  | a, b => do
    let a ← asFloat a
    let b ← asFloat b
    return .float (floatArithmetic op a b)

/-- The negative of a number. -/
def negate : Value → Eval Value
  | .int n => return .int (-n)
  | .float x => return .float (-x)
  | v => fail (.unexpected .number v.shape)

/-- Call a host function. -/
def callHost (f : HostFunction) (args : List Value) : Eval Value :=
  match f, args with
  | .print, args => do
    print args
    return .void
  | .pow, [base, exponent] => do
    let base ← asFloat base
    let exponent ← asFloat exponent
    return .float (base.pow exponent)
  | .pow, args => fail (.arity 2 args.length)
  | .toFloat, [.int n] => return .float (Float.ofInt n.toInt)
  | .toFloat, [v] => fail (.unexpected .integer v.shape)
  | .toInt, [.float x] => return .int x.toInt64
  | .toInt, [v] => fail (.unexpected .float v.shape)
  | .toFloat, args | .toInt, args => fail (.arity 1 args.length)

/-- The value of a name: that of its slot, or an intrinsic. -/
def lookup (scope : Scope Slot) (name : String) : Eval Value :=
  match scope.lookup? name with
  | some slot => read slot
  | none =>
    match HostFunction.intrinsic? name with
    | some f => return .host f
    | none => fail (.unbound name)

/-! ## Terms -/

mutual
/-- The value of a term, and the scope after it. -/
def eval : (fuel : Nat) → Term → Scope Slot → List Value → Eval (Value × Scope Slot)
  | 0, _, _, _ => throw .outOfFuel
  | fuel + 1, t, scope, held =>
    match t with
    | .literal _ value => return (value.toValue, scope)
    | .seq _ lhs rhs => do
      let (_, scope) ← eval fuel lhs scope held
      eval fuel rhs scope held
    | .define _ name value => do
      let (v, _) ← eval fuel value scope held
      let slot ← allocate v
      return (v, scope.extend name slot)
    | .assign _ name value => do
      let (v, _) ← eval fuel value scope held
      match scope.lookup? name with
      | none => fail (.unbound name)
      | some slot =>
        write slot v
        return (v, scope)
    | .lookup _ name => do
      let v ← lookup scope name
      return (v, scope)
    | .unary _ .neg operand => do
      let (v, _) ← eval fuel operand scope held
      return (← negate v, scope)
    | .binary _ op lhs rhs => do
      let (a, after) ← eval fuel lhs scope held
      let (b, _) ← eval fuel rhs after held
      return (← arithmetic op a b, scope)
    | .quote _ _ _ body => do
      let (body, kept) ← build fuel body 0 scope held []
      return (.code body kept, scope)
    | .escape .. => fail .escapeOutsideQuote
    | .run _ body => do
      match ← eval fuel body scope held with
      | (.code body kept, _) =>
        let (v, _) ← eval fuel body {} kept
        return (v, scope)
      | (v, _) => fail (.unexpected .code v.shape)
    | .lambda _ params body => do
      let serial ← nextSerial
      return (.closure serial (params.map (·.name)) body scope held, scope)
    | .call _ callee args => do
      let (f, _) ← eval fuel callee scope held
      let args ← evalAll fuel args scope held
      let v ← apply fuel f args
      return (v, scope)
    | .host _ name _ =>
      match HostFunction.declared? name with
      | none => fail (.unknownHost name)
      | some f => do
        let slot ← allocate (.host f)
        return (.host f, scope.extend name slot)
    | .held _ index =>
      match held[index]? with
      | some v => return (v, scope)
      | none => fail (.missingHeld index)

/-- The values of arguments, all evaluated in the same scope. -/
def evalAll : (fuel : Nat) → List Term → Scope Slot → List Value → Eval (List Value)
  | 0, _, _, _ => throw .outOfFuel
  | _ + 1, [], _, _ => return []
  | fuel + 1, t :: rest, scope, held => do
    let (v, _) ← eval fuel t scope held
    let vs ← evalAll fuel rest scope held
    return v :: vs

/-- Call a function. -/
def apply : (fuel : Nat) → Value → List Value → Eval Value
  | 0, _, _ => throw .outOfFuel
  | fuel + 1, f, args =>
    match f with
    | .closure _ params body scope held =>
      if params.length ≠ args.length then fail (.arity params.length args.length)
      else do
        let slots ← allocateAll args
        let (v, _) ← eval fuel body (scope.extendAll (params.zip slots)) held
        return v
    | .host f => callHost f args
    | v => fail (.unexpected .function v.shape)

/-- Carry out the escapes that belong to a quote, in a part of its body under `depth` further quotes.
`kept` holds the values kept so far; the result is the code and all values kept. -/
def build : (fuel : Nat) → Term → (depth : Nat) → Scope Slot → List Value → (kept : List Value) →
    Eval (Term × List Value)
  | 0, _, _, _, _, _ => throw .outOfFuel
  | fuel + 1, t, depth, scope, held, kept =>
    match t with
    | .quote site label snippet body => do
      let (body, kept) ← build fuel body (depth + 1) scope held kept
      return (.quote site label snippet body, kept)
    | .escape site kind body =>
      match depth with
      | depth + 1 => do
        let (body, kept) ← build fuel body depth scope held kept
        return (.escape site kind body, kept)
      | 0 => do
        let (v, _) ← eval fuel body scope held
        match kind, v with
        | .persist, v => return (.held site kept.length, kept ++ [v])
        | _, .code body values => return (body.shiftHeld kept.length, kept ++ values)
        | _, v => fail (.unexpected .code v.shape)
    | t => do
      let (children, kept) ← buildAll fuel t.children depth scope held kept
      return (t.withChildren children, kept)

/-- Carry out the escapes in several parts of a body, from left to right. -/
def buildAll : (fuel : Nat) → List Term → (depth : Nat) → Scope Slot → List Value →
    (kept : List Value) → Eval (List Term × List Value)
  | 0, _, _, _, _, _ => throw .outOfFuel
  | _ + 1, [], _, _, _, kept => return ([], kept)
  | fuel + 1, t :: rest, depth, scope, held, kept => do
    let (t, kept) ← build fuel t depth scope held kept
    let (rest, kept) ← buildAll fuel rest depth scope held kept
    return (t :: rest, kept)
end

end Eval

/-- Evaluate a program from an empty scope. -/
def interpret (fuel : Nat) (t : Term) : Eval Value := do
  let (v, _) ← Eval.eval fuel t {} []
  return v

/-- More fuel than any program uses up that ends within a lifetime. -/
def ampleFuel : Nat := 1 <<< 62

end Multistage
