import Multistage.Term.Basic
import Multistage.Text.Numeral
import Multistage.Text.Quoted

/-!
# Terms as text

The surface form of terms and written types, for messages and for the text of code values. Compound
operands stand in parentheses.
-/

namespace Multistage

/-- Float literals keep a point or an exponent, so that they do not look like integers. They are written
with an exponent below `10 ^ -4` and from `10 ^ 16` on. -/
def Literal.floatLayout : Numeral.Layout where
  positional e := -4 ≤ e && e ≤ 15
  pointZero := true
  tie := .up

/-- The text of a double; `plain` lays out the finite ones. -/
def floatText (plain : Numeral.Layout) (x : Float) : String :=
  if x.isNaN then "NaN"
  else if x.isInf then if x < 0 then "-inf" else "inf"
  else String.ofList ((Numeral.ofFloat plain x).chars false)

def Literal.text : Literal → String
  | .int n => toString n.toInt
  | .float x => floatText floatLayout x
  | .string s => Text.quoted s

namespace TypeExpr

mutual
/-- The text of a written type. -/
def text : TypeExpr → String
  | .named name => name
  | .code inner => "<" ++ text inner ++ ">"
  | .arrow params result => "(" ++ textAll params ++ "-> " ++ text result ++ ")"

/-- Parameter types, each with a blank after it. -/
def textAll : List TypeExpr → String
  | [] => ""
  | a :: rest => text a ++ " " ++ textAll rest
end

end TypeExpr

/-- The text of a parameter. -/
def Param.text (p : Param) : String :=
  match p.type with
  | some type => p.name ++ ":" ++ type.text
  | none => p.name

/-- The mark before an escape. -/
def EscapeKind.sigil : EscapeKind → String
  | .splice => ""
  | .persist => "%"
  | .snippet => "$"

namespace Term

/-- Whether a term stands in parentheses as an operand. -/
def isCompound : Term → Bool
  | .seq .. | .define .. | .assign .. | .binary .. | .lambda .. | .host .. => true
  | _ => false

/-- The text of `t` as an operand. -/
def operand (t : Term) (text : String) : String :=
  if t.isCompound then "(" ++ text ++ ")" else text

mutual
def text : Term → String
  | .literal _ value => value.text
  | .seq _ l r => text l ++ "; " ++ text r
  | .define _ name t => "var " ++ name ++ " = " ++ text t
  | .assign _ name t => name ++ " = " ++ text t
  | .lookup _ name => name
  | .unary _ .neg t => "-" ++ operand t (text t)
  | .binary _ op l r => operand l (text l) ++ " " ++ op.symbol ++ " " ++ operand r (text r)
  | .quote _ label snippet t =>
    (if snippet then "$" else "") ++ label.getD "" ++ "<" ++ text t ++ ">"
  | .escape _ kind t => kind.sigil ++ "[" ++ text t ++ "]"
  | .run _ t => "!" ++ operand t (text t)
  | .lambda _ params t => "fun" ++ String.join (params.map fun p => " " ++ p.text) ++ " -> " ++ text t
  | .call _ callee args => operand callee (text callee) ++ "(" ++ ", ".intercalate (textAll args) ++ ")"
  | .host _ name type => "extern " ++ name ++ ": " ++ type.text
  | .held _ index => "%" ++ toString index

/-- The texts of several terms. -/
def textAll : List Term → List String
  | [] => []
  | t :: rest => text t :: textAll rest
end

end Term

end Multistage
