import Multistage.Scope

/-!
# Types and stages

A type has a stage: at stage 0 it describes ordinary values, at stage `n > 0` code that has been quoted
`n` times. While a quote is being checked, names bound outside it have types at stages below zero.

Main definitions:

* `Ty`, with decidable equality, `Ty.shift` and `Ty.text`;
* `Ty.fits`, whether the stages of a type are signed words of 32 bits;
* `Binding`, the type of a name together with the number of quotes around its binding.
-/

namespace Multistage

/-- A type that is not a function. -/
inductive Base where
  | int
  | float
  | string
  | void
  /-- an opaque type, known by its name -/
  | prim (name : String)
  deriving DecidableEq, Inhabited, Repr

/-- A type at a stage. -/
inductive Ty where
  | base (kind : Base) (stage : Int)
  | arrow (params : List Ty) (result : Ty) (stage : Int)
  deriving Inhabited, Repr

namespace Ty

mutual
/-- Types can be told apart. -/
def decEq : (a b : Ty) → Decidable (a = b)
  | .base k m, .base l n =>
    if h : k = l ∧ m = n then isTrue (by rw [h.1, h.2])
    else isFalse fun e => h (by injection e; exact ⟨‹_›, ‹_›⟩)
  | .arrow ps r m, .arrow qs s n =>
    match decEqAll ps qs, decEq r s with
    | isTrue hp, isTrue hr =>
      if h : m = n then isTrue (by rw [hp, hr, h]) else isFalse fun e => h (by injection e)
    | isFalse h, _ => isFalse fun e => h (by injection e)
    | _, isFalse h => isFalse fun e => h (by injection e)
  | .base .., .arrow .. | .arrow .., .base .. => isFalse nofun

/-- Lists of types can be told apart. -/
def decEqAll : (as bs : List Ty) → Decidable (as = bs)
  | [], [] => isTrue rfl
  | a :: as, b :: bs =>
    match decEq a b, decEqAll as bs with
    | isTrue ha, isTrue hs => isTrue (by rw [ha, hs])
    | isFalse h, _ => isFalse fun e => h (by injection e)
    | _, isFalse h => isFalse fun e => h (by injection e)
  | [], _ :: _ | _ :: _, [] => isFalse nofun
end

instance : DecidableEq Ty := decEq

/-! ## Stages -/

/-- The stage of a type. -/
def stage : Ty → Int
  | .base _ stage => stage
  | .arrow _ _ stage => stage

/-- The same type, `amount` stages further on. -/
def shift (amount : Int) : Ty → Ty
  | .base kind stage => .base kind (stage + amount)
  | .arrow params result stage => .arrow params result (stage + amount)

/-- Whether a type describes code. -/
def isCode (t : Ty) : Bool := t.stage > 0

/-- Whether a stage is a signed word of 32 bits. -/
def stageFits (stage : Int) : Bool := -2147483648 ≤ stage && stage < 2147483648

mutual
/-- Whether all stages in a type are signed words of 32 bits. -/
def fits : Ty → Bool
  | .base _ stage => stageFits stage
  | .arrow params result stage => stageFits stage && fitsAll params && fits result

/-- Whether all stages in some types are signed words of 32 bits. -/
def fitsAll : List Ty → Bool
  | [] => true
  | t :: rest => fits t && fitsAll rest
end

/-! ## Common types -/

/-- Integers. -/
def int : Ty := .base .int 0

/-- Floating point numbers. -/
def float : Ty := .base .float 0

/-- Texts. -/
def string : Ty := .base .string 0

/-- The type without a value of interest. -/
def void : Ty := .base .void 0

/-- An opaque type. -/
def prim (name : String) : Ty := .base (.prim name) 0

def function (params : List Ty) (result : Ty) : Ty := .arrow params result 0

/-- Whether a type is a number type, at any stage. -/
def isNumeric : Ty → Bool
  | .base .int _ | .base .float _ => true
  | _ => false

/-! ## Text -/

/-- Brackets for the stage around the text of a type: angle brackets for code, square ones for stages
below zero. -/
def staged (stage : Int) (text : String) : String :=
  let (opening, closing) := if stage ≥ 0 then ('<', '>') else ('[', ']')
  String.ofList (List.replicate stage.natAbs opening) ++ text ++
    String.ofList (List.replicate stage.natAbs closing)

end Ty

/-- The name of a type. -/
def Base.text : Base → String
  | .int => "Int"
  | .float => "Float"
  | .string => "String"
  | .void => "Void"
  | .prim name => name

namespace Ty

mutual
/-- The text of a type. -/
def text : Ty → String
  | .base kind stage => staged stage kind.text
  | .arrow params result stage =>
    staged stage ("(" ++ textAll params ++ "-> " ++ text result ++ ")")

/-- Parameter types, each with a blank after it. -/
def textAll : List Ty → String
  | [] => ""
  | t :: rest => text t ++ " " ++ textAll rest
end

end Ty

/-! ## Bindings -/

/-- The type of a name, and how many quotes are around its binding. -/
structure Binding where
  type : Ty
  level : Nat
  deriving DecidableEq, Inhabited, Repr

/-- Move the types of all names by a number of stages. -/
def Scope.shift (amount : Int) (s : Scope Binding) : Scope Binding :=
  s.map fun b => { b with type := b.type.shift amount }

end Multistage
