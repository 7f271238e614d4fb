import Multistage.Json.Parser
import Multistage.Json.Printer
import Multistage.Program

/-!
# Terms as JSON

Every node is an object with its identity, its span and its kind; the kind is an object whose `tag`
names the construct. `Term.toJson` writes every field, in a fixed order.

`Term.decode?` reads fields in any order, ignores unknown ones, fills in a missing span, annotation,
snippet mark or parameter type, and refuses repeated known fields, numbers out of range and values of
another kind. Nodes, kinds, parameters and spans are read from objects only: an array of the values of their
fields, without the names, is refused here, although other readers of the format take it for the object.
Texts that nest deeper than `nestingLimit` are refused as a whole.
-/

namespace Multistage

/-- How many arrays and objects may be nested in the text of a term. -/
def nestingLimit : Nat := 127

/-! ## Writing -/

/-- In JSON float literals keep a point or an exponent; they are written with an exponent below
`10 ^ -5` and from `10 ^ 16` on. -/
def Literal.jsonLayout : Numeral.Layout where
  positional e := -5 ≤ e && e ≤ 15
  pointZero := true
  tie := .even

namespace Json

/-- A whole number. -/
def ofInt (n : Int) : Json := .number (Numeral.ofInt n)

/-- A natural number. -/
def ofNat (n : Nat) : Json := ofInt n

/-- A double; there is no number for the ones that are not finite. -/
def ofFloat (x : Float) : Json :=
  if x.isFinite then .number (Numeral.ofFloat Literal.jsonLayout x) else .null

/-- A value or null. -/
def ofOption {α : Type} (f : α → Json) : Option α → Json
  | some a => f a
  | none => .null

end Json

/-- A literal's fields. -/
def Literal.jsonFields : Literal → List (String × Json)
  | .int n => [("type", .string "int"), ("value", .ofInt n.toInt)]
  | .float x => [("type", .string "float"), ("value", .ofFloat x)]
  | .string s => [("type", .string "string"), ("value", .string s)]

/-- The name of an operator in JSON. -/
def UnaryOp.word : UnaryOp → String
  | .neg => "neg"

/-- The name of an operator in JSON. -/
def BinaryOp.word : BinaryOp → String
  | .add => "add"
  | .sub => "sub"
  | .mul => "mul"
  | .div => "div"

/-- The name of a kind of escape in JSON. -/
def EscapeKind.word : EscapeKind → String
  | .splice => "splice"
  | .persist => "persist"
  | .snippet => "snippet"

namespace TypeExpr

mutual
/-- A written type in JSON. -/
def toJson : TypeExpr → Json
  | .named name => .object [("named", .string name)]
  | .code inner => .object [("code", toJson inner)]
  | .arrow params result =>
    .object [("fun", .object [("params", .array (toJsonAll params)), ("ret", toJson result)])]

/-- Several written types in JSON. -/
def toJsonAll : List TypeExpr → List Json
  | [] => []
  | a :: rest => toJson a :: toJsonAll rest
end

end TypeExpr

/-- A parameter in JSON. -/
def Param.toJson (p : Param) : Json :=
  .object [("id", .ofNat p.id.toNat), ("name", .string p.name), ("ty", .ofOption (·.toJson) p.type)]

def Span.toJson (s : Span) : Json :=
  .object [("start", .ofNat s.start.toNat), ("end", .ofNat s.stop.toNat)]

namespace Term

/-- A node in JSON, given the name of its construct and the fields of its kind. -/
def nodeJson (site : Site) (tag : String) (fields : List (String × Json)) : Json :=
  .object [("id", .ofNat site.id.toNat), ("span", site.span.toJson),
    ("kind", .object (("tag", .string tag) :: fields))]

mutual
def toJson : Term → Json
  | .literal s value => nodeJson s "literal" value.jsonFields
  | .seq s l r => nodeJson s "seq" [("lhs", toJson l), ("rhs", toJson r)]
  | .define s name t => nodeJson s "let" [("name", .string name), ("value", toJson t)]
  | .assign s name t => nodeJson s "assign" [("name", .string name), ("value", toJson t)]
  | .lookup s name => nodeJson s "lookup" [("name", .string name)]
  | .unary s op t => nodeJson s "unary" [("op", .string op.word), ("operand", toJson t)]
  | .binary s op l r =>
    nodeJson s "binary" [("op", .string op.word), ("lhs", toJson l), ("rhs", toJson r)]
  | .quote s label snippet t =>
    nodeJson s "quote" [("annotation", .ofOption .string label), ("snippet", .bool snippet),
      ("body", toJson t)]
  | .escape s kind t => nodeJson s "escape" [("kind", .string kind.word), ("body", toJson t)]
  | .run s t => nodeJson s "run" [("body", toJson t)]
  | .lambda s params t =>
    nodeJson s "fun" [("params", .array (params.map Param.toJson)), ("body", toJson t)]
  | .call s callee args =>
    nodeJson s "call" [("callee", toJson callee), ("args", .array (toJsonAll args))]
  | .host s name type => nodeJson s "extern" [("name", .string name), ("ty", type.toJson)]
  | .held s index => nodeJson s "persist" [("index", .ofNat index)]

/-- Several terms in JSON. -/
def toJsonAll : List Term → List Json
  | [] => []
  | t :: rest => toJson t :: toJsonAll rest
end

def jsonText (t : Term) : String := t.toJson.pretty

end Term

/-! ## Reading -/

namespace Json

/-- An identity. -/
def nodeId? (j : Json) : Option NodeId := (j.natBelow? UInt32.size).map UInt32.ofNat

/-- A position in a source text. -/
def offset? (j : Json) : Option UInt64 := (j.natBelow? UInt64.size).map UInt64.ofNat

/-- A range of source text. -/
def span? (j : Json) : Option Span := do
  let fields ← j.fields?
  let start ← (← required? fields "start").offset?
  let stop ← (← required? fields "end").offset?
  return ⟨start, stop⟩

/-- The text of a field that must be there. -/
def text? (fields : List (String × Json)) (key : String) : Option String := do
  (← required? fields key).string?

/-- The identity and the position of a node, from its fields. -/
def site? (fields : List (String × Json)) : Option Site := do
  let id ← (← required? fields "id").nodeId?
  let span ← match ← optional? fields "span" with
    | none => some {}
    | some span => span.span?
  return ⟨id, span⟩

/-- A literal, from the fields of its node. -/
def literal? (fields : List (String × Json)) : Option Literal := do
  let type ← text? fields "type"
  let value ← required? fields "value"
  match type with
  | "int" => value.int64?.map .int
  | "float" => value.float?.map .float
  | "string" => value.string?.map .string
  | _ => none

/-- The annotation of a quote, from the fields of its node. -/
def label? (fields : List (String × Json)) : Option (Option String) := do
  match nonNull (← optional? fields "annotation") with
  | none => some none
  | some label => label.string?.map some

/-- Whether a quote is a snippet, from the fields of its node. -/
def snippet? (fields : List (String × Json)) : Option Bool := do
  match ← optional? fields "snippet" with
  | none => some false
  | some snippet => snippet.bool?

/-- The operator of a negation. -/
def unaryOp? (j : Json) : Option UnaryOp := do
  match ← j.string? with
  | "neg" => some .neg
  | _ => none

/-- An operator with two operands. -/
def binaryOp? (j : Json) : Option BinaryOp := do
  match ← j.string? with
  | "add" => some .add
  | "sub" => some .sub
  | "mul" => some .mul
  | "div" => some .div
  | _ => none

def escapeKind? (j : Json) : Option EscapeKind := do
  match ← j.string? with
  | "splice" => some .splice
  | "persist" => some .persist
  | "snippet" => some .snippet
  | _ => none

end Json

open Json in
/-- Read a written type that is nested at most `fuel` deep. -/
def TypeExpr.decode? : (fuel : Nat) → Json → Option TypeExpr
  | 0, _ => none
  | fuel + 1, j =>
    match j with
    | .object [("named", name)] => name.string?.map .named
    | .object [("code", inner)] => (decode? fuel inner).map .code
    | .object [("fun", parts)] => do
      let fields ← parts.fields?
      let params ← (← required? fields "params").items?
      let params ← params.mapM (decode? fuel)
      let result ← decode? fuel (← required? fields "ret")
      return .arrow params result
    | _ => none

open Json in
/-- Read a parameter. -/
def Param.decode? (fuel : Nat) (j : Json) : Option Param := do
  let fields ← j.fields?
  let id ← (← required? fields "id").nodeId?
  let name ← text? fields "name"
  match nonNull (← optional? fields "ty") with
  | none => return ⟨id, name, none⟩
  | some type => return ⟨id, name, some (← TypeExpr.decode? fuel type)⟩

open Json in
/-- Read a node from the fields of its kind; `term` reads its subterms, and the written types in it are
nested at most `depth` deep. -/
def Term.ofKind? (term : Json → Option Term) (depth : Nat) (site : Site)
    (kind : List (String × Json)) : Option Term := do
  let child (key : String) : Option Term := do term (← required? kind key)
  match ← text? kind "tag" with
  | "literal" => return .literal site (← literal? kind)
  | "seq" => return .seq site (← child "lhs") (← child "rhs")
  | "let" => return .define site (← text? kind "name") (← child "value")
  | "assign" => return .assign site (← text? kind "name") (← child "value")
  | "lookup" => return .lookup site (← text? kind "name")
  | "unary" => return .unary site (← (← required? kind "op").unaryOp?) (← child "operand")
  | "binary" => return .binary site (← (← required? kind "op").binaryOp?) (← child "lhs") (← child "rhs")
  | "quote" => return .quote site (← label? kind) (← snippet? kind) (← child "body")
  | "escape" => return .escape site (← (← required? kind "kind").escapeKind?) (← child "body")
  | "run" => return .run site (← child "body")
  | "fun" =>
    let params ← (← required? kind "params").items?
    return .lambda site (← params.mapM (Param.decode? depth)) (← child "body")
  | "call" =>
    let callee ← child "callee"
    let args ← (← required? kind "args").items?
    return .call site callee (← args.mapM term)
  | "extern" => return .host site (← text? kind "name") (← TypeExpr.decode? depth (← required? kind "ty"))
  | "persist" => return .held site (← (← required? kind "index").natBelow? UInt64.size)
  | _ => none

open Json in
/-- Read a term whose nodes are nested at most `fuel` deep. -/
def Term.decode? : (fuel : Nat) → Json → Option Term
  | 0, _ => none
  | fuel + 1, j => do
    let fields ← j.fields?
    let site ← site? fields
    let kind ← (← required? fields "kind").fields?
    ofKind? (decode? fuel) j.depth site kind

/-- Read a term. -/
def Term.ofJson? (j : Json) : Option Term :=
  if j.depth ≤ nestingLimit then Term.decode? j.depth j else none

/-- Read a term from its JSON text. -/
def Term.parse? (text : String) : Option Term := Json.parse? text >>= Term.ofJson?

open Json in
/-- Read a program with its supply. Nothing is reserved: the supply is taken as it stands. -/
def Program.ofJson? (j : Json) : Option Program := do
  if j.depth > nestingLimit then none
  let fields ← j.fields?
  let root ← Term.decode? j.depth (← required? fields "root")
  let supply ← (← required? fields "ids").fields?
  let next ← (← required? supply "next").nodeId?
  return ⟨root, ⟨next⟩⟩

end Multistage
