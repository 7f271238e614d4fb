import Multistage.Program

/-!
# Building terms step by step

Terms are built bottom up. Every construction takes a fresh identity from one supply, so the nodes of
what has been built never share an identity unless a term is copied.

Main definitions:

* the constructions (`Assembly.literal`, `Assembly.seq`, …) in the monad `Assembly`;
* `Step`, a construction that takes its operands from a stack, and `Bench`, the stack with its supply;
* `Step.perform`, which carries a step out, and `Bench.finish`, which makes a program of what was built.
-/

namespace Multistage

/-- A construction that takes identities from a supply and fails when it runs dry. -/
abbrev Assembly := StateT Supply Option

namespace Assembly

/-- A site with a fresh identity. -/
def freshSite : Assembly Site := do
  let id ← Supply.fresh?
  return ⟨id, {}⟩

def literal (value : Literal) : Assembly Term := return .literal (← freshSite) value

/-- A use of a name. -/
def lookup (name : String) : Assembly Term := return .lookup (← freshSite) name

/-- The declaration of a host function. -/
def host (name : String) (type : TypeExpr) : Assembly Term := return .host (← freshSite) name type

/-- A definition. -/
def define (name : String) (value : Term) : Assembly Term := return .define (← freshSite) name value

/-- An assignment. -/
def assign (name : String) (value : Term) : Assembly Term := return .assign (← freshSite) name value

/-- A negation. -/
def neg (operand : Term) : Assembly Term := return .unary (← freshSite) .neg operand

/-- An operator with two operands. -/
def binary (op : BinaryOp) (lhs rhs : Term) : Assembly Term := return .binary (← freshSite) op lhs rhs

/-- A quote, which may carry a label and may be a snippet. -/
def quote (label : Option String) (snippet : Bool) (body : Term) : Assembly Term :=
  return .quote (← freshSite) label snippet body

def escape (kind : EscapeKind) (body : Term) : Assembly Term := return .escape (← freshSite) kind body

/-- The execution of code. -/
def run (body : Term) : Assembly Term := return .run (← freshSite) body

def call (callee : Term) (args : List Term) : Assembly Term := return .call (← freshSite) callee args

/-- One term after another. -/
def seq (lhs rhs : Term) : Assembly Term := return .seq (← freshSite) lhs rhs

/-- A sequence of terms, nested to the right. The innermost pair is built first. -/
def block (first : Term) : List Term → Assembly Term
  | [] => return first
  | second :: rest => do seq first (← block second rest)

/-- A parameter with a fresh identity. -/
def param (name : String) (type : Option TypeExpr) : Assembly Param :=
  return ⟨← Supply.fresh?, name, type⟩

/-- A function; the identities of its parameters come before its own. -/
def lambda (params : List (String × Option TypeExpr)) (body : Term) : Assembly Term := do
  let params ← params.mapM fun (name, type) => param name type
  return .lambda (← freshSite) params body

end Assembly

/-! ## Steps on a stack -/

/-- Terms that wait to be used, the last one first, and the supply for new ones. -/
structure Bench where
  stack : List Term := []
  supply : Supply := {}
  deriving Inhabited, Repr

/-- A construction whose operands come off the stack; the last operand is on top. -/
inductive Step where
  | literal (value : Literal)
  | lookup (name : String)
  | host (name : String) (type : TypeExpr)
  | define (name : String)
  | assign (name : String)
  | neg
  | quote (label : Option String) (snippet : Bool)
  | escape (kind : EscapeKind)
  | run
  | lambda (params : List (String × Option TypeExpr))
  | seq
  | binary (op : BinaryOp)
  /-- a block of `count` terms -/
  | block (count : Nat)
  /-- a call with `count` arguments -/
  | call (count : Nat)
  /-- copy the top of the stack, identities included -/
  | dup
  /-- carry out `steps` several times -/
  | again (times : Nat) (steps : List Step)
  deriving Inhabited, Repr

namespace Bench

/-- Put a new term on top of `stack`. -/
def push (b : Bench) (stack : List Term) (term : Assembly Term) : Option Bench := do
  let (t, supply) ← term b.supply
  return ⟨t :: stack, supply⟩

/-- Replace the top of the stack. -/
def wrap (b : Bench) (f : Term → Assembly Term) : Option Bench :=
  match b.stack with
  | t :: stack => b.push stack (f t)
  | [] => none

/-- Replace the top two terms of the stack. -/
def join (b : Bench) (f : Term → Term → Assembly Term) : Option Bench :=
  match b.stack with
  | rhs :: lhs :: stack => b.push stack (f lhs rhs)
  | _ => none

/-- Replace a term and the `count` terms above it. -/
def gather (b : Bench) (count : Nat) (f : Term → List Term → Assembly Term) : Option Bench :=
  match b.stack.drop count with
  | t :: stack => b.push stack (f t (b.stack.take count).reverse)
  | [] => none

/-- The program around a term, with what is left of the supply. -/
def finish (b : Bench) (root : Term) : Program := ⟨root, b.supply⟩

end Bench

namespace Step

mutual
/-- Carry out a step; it fails if the stack is too short or the supply is empty. -/
def perform : Step → Bench → Option Bench
  | .literal value, b => b.push b.stack (Assembly.literal value)
  | .lookup name, b => b.push b.stack (Assembly.lookup name)
  | .host name type, b => b.push b.stack (Assembly.host name type)
  | .define name, b => b.wrap (Assembly.define name)
  | .assign name, b => b.wrap (Assembly.assign name)
  | .neg, b => b.wrap Assembly.neg
  | .quote label snippet, b => b.wrap (Assembly.quote label snippet)
  | .escape kind, b => b.wrap (Assembly.escape kind)
  | .run, b => b.wrap Assembly.run
  | .lambda params, b => b.wrap (Assembly.lambda params)
  | .seq, b => b.join Assembly.seq
  | .binary op, b => b.join (Assembly.binary op)
  | .block 0, _ => none
  | .block (count + 1), b => b.gather count Assembly.block
  | .call count, b => b.gather count Assembly.call
  | .dup, b => b.stack.head?.map fun t => { b with stack := t :: b.stack }
  | .again times steps, b => (List.replicate times ()).foldlM (fun b _ => performAll steps b) b

/-- Carry out steps one after another. -/
def performAll : List Step → Bench → Option Bench
  | [], b => some b
  | step :: rest, b =>
    match perform step b with
    | none => none
    | some b => performAll rest b
end

end Step

end Multistage
