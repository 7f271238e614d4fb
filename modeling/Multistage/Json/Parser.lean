import Multistage.Json.Token

/-!
# Reading JSON

The parser is a machine that takes one token at a time. Its state holds the arrays and objects that
are still open, innermost first, and what may come next.

`Json.parse?` accepts a text if the machine ends with one complete value and nothing open.
-/

namespace Multistage.Json

/-- An array or object that is still open, with its earlier entries in reverse. -/
inductive Frame where
  /-- in an array -/
  | item (before : List Json)
  /-- in an object, at the value of `key` -/
  | field (before : List (String × Json)) (key : String)
  deriving Inhabited, Repr

/-- What the machine has read. -/
inductive State where
  /-- a value must follow -/
  | value (stack : List Frame)
  /-- an array has been opened -/
  | firstItem (stack : List Frame)
  /-- an object has been opened -/
  | firstKey (stack : List Frame)
  /-- a key must follow -/
  | key (before : List (String × Json)) (stack : List Frame)
  /-- a colon must follow -/
  | colon (before : List (String × Json)) (key : String) (stack : List Frame)
  /-- a value is complete -/
  | done (value : Json) (stack : List Frame)
  deriving Inhabited, Repr

namespace State

/-- The state after the first token of a value. -/
def startValue (stack : List Frame) : Token → Option State
  | .word v => some (.done v stack)
  | .string s => some (.done (.string s) stack)
  | .number n => some (.done (.number n) stack)
  | .openBracket => some (.firstItem stack)
  | .openBrace => some (.firstKey stack)
  | _ => none

/-- Take one token. -/
def step : State → Token → Option State
  | .value stack, token => startValue stack token
  | .firstItem stack, .closeBracket => some (.done (.array []) stack)
  | .firstItem stack, token => startValue (.item [] :: stack) token
  | .firstKey stack, .closeBrace => some (.done (.object []) stack)
  | .firstKey stack, .string k => some (.colon [] k stack)
  | .key before stack, .string k => some (.colon before k stack)
  | .colon before k stack, .colon => some (.value (.field before k :: stack))
  | .done v (.item before :: stack), .comma => some (.value (.item (v :: before) :: stack))
  | .done v (.item before :: stack), .closeBracket => some (.done (.array (v :: before).reverse) stack)
  | .done v (.field before k :: stack), .comma => some (.key ((k, v) :: before) stack)
  | .done v (.field before k :: stack), .closeBrace =>
    some (.done (.object ((k, v) :: before).reverse) stack)
  | _, _ => none

end State

/-- The value that a list of tokens spells. -/
def ofTokens? (tokens : List Token) : Option Json :=
  match tokens.foldlM State.step (.value []) with
  | some (.done value []) => some value
  | _ => none

/-- Read a JSON text. -/
def parse? (text : String) : Option Json := do
  let tokens ← tokens? text.toList
  ofTokens? tokens

end Multistage.Json
