import Multistage.Scope
import Multistage.Term.Printer
import Multistage.Term.Same

/-!
# Values

What evaluation produces. A code value is a term together with the values that its held references
stand for; a closure remembers the slots that were in scope where its function was written.

Main definitions: `Value`, `Value.text`, `Value.same`, and `Failure`, the ways in which evaluation goes
wrong.
-/

namespace Multistage

/-- The place of a variable's value. -/
abbrev Slot := Nat

/-- Functions that the host provides. -/
inductive HostFunction where
  | print
  | pow
  | toFloat
  | toInt
  deriving DecidableEq, Inhabited, Repr

namespace HostFunction

def name : HostFunction → String
  | .print => "print"
  | .pow => "pow"
  | .toFloat => "float"
  | .toInt => "int"

/-- The host functions that a program may declare. -/
def declared? : String → Option HostFunction
  | "print" => some .print
  | "pow" => some .pow
  | _ => none

/-- The host functions that need no declaration. -/
def intrinsic? : String → Option HostFunction
  | "float" => some .toFloat
  | "int" => some .toInt
  | _ => none

end HostFunction

/-- A value. -/
inductive Value where
  | int (value : Int64)
  | float (value : Float)
  | string (value : String)
  | void
  /-- a function with the number under which it was created -/
  | closure (serial : Nat) (params : List String) (body : Term) (scope : Scope Slot) (held : List Value)
  | code (body : Term) (held : List Value)
  | host (function : HostFunction)
  deriving Inhabited, Repr

/-- The kinds of values that messages speak of. -/
inductive Shape where
  | integer
  | float
  | number
  | string
  | void
  | function
  | code
  deriving DecidableEq, Inhabited, Repr

/-- A kind of value in words. -/
def Shape.text : Shape → String
  | .integer => "an integer"
  | .float => "a float"
  | .number => "a number"
  | .string => "a string"
  | .void => "void"
  | .function => "a function"
  | .code => "code"

namespace Value

/-- The kind of a value. -/
def shape : Value → Shape
  | .int _ => .integer
  | .float _ => .float
  | .string _ => .string
  | .void => .void
  | .closure .. | .host _ => .function
  | .code .. => .code

/-- Floats are written without an exponent, and whole ones without a point. -/
def floatLayout : Numeral.Layout where
  positional _ := true
  pointZero := false
  tie := .up

def text : Value → String
  | .int n => toString n.toInt
  | .float x => floatText floatLayout x
  | .string s => Text.quoted s
  | .void => "void"
  | .closure .. => "(fun)"
  | .code body _ => "<" ++ body.text ++ ">"
  | .host f => "<extern " ++ f.name ++ ">"

/-- The text of a value when it is printed; strings stand without quotes. -/
def printed : Value → String
  | .string s => s
  | v => v.text

mutual
/-- Whether two values are the same. Closures are the same if they were created together; floats are
compared as numbers. -/
def same : Value → Value → Bool
  | .int a, .int b => a = b
  | .float a, .float b => a == b
  | .string a, .string b => a = b
  | .void, .void => true
  | .closure a _ _ _ _, .closure b _ _ _ _ => a = b
  | .code a vs, .code b ws => a.same b && sameAll vs ws
  | .host a, .host b => a = b
  | _, _ => false

/-- Whether two lists hold the same values. -/
def sameAll : List Value → List Value → Bool
  | [], [] => true
  | v :: vs, w :: ws => same v w && sameAll vs ws
  | _, _ => false
end

end Value

def Literal.toValue : Literal → Value
  | .int n => .int n
  | .float x => .float x
  | .string s => .string s

/-! ## Failures -/

/-- Why evaluation stops. -/
inductive Failure where
  | unbound (name : String)
  | unknownHost (name : String)
  | unexpected (expected found : Shape)
  | arity (expected found : Nat)
  | divisionByZero
  | escapeOutsideQuote
  | missingHeld (index : Nat)
  deriving DecidableEq, Inhabited, Repr

/-- A failure in words. -/
def Failure.message : Failure → String
  | .unbound name => "unbound variable " ++ name
  | .unknownHost name => "unknown extern " ++ name
  | .unexpected expected found => "expected " ++ expected.text ++ ", got " ++ found.text
  | .arity expected found => "expected " ++ toString expected ++ " arguments, got " ++ toString found
  | .divisionByZero => "division by zero"
  | .escapeOutsideQuote => "escape outside of a quote"
  | .missingHeld index => "persisted value " ++ toString index ++ " is missing"

end Multistage
