import Multistage.Fault

/-!
# Names that need no declaration

A `Prelude` lists the types that annotations may name and the intrinsics that every program may use, at
any stage. There is one for general programs and an extended one for shaders.

Main definitions: `Prelude.general`, `Prelude.shader`, and `Prelude.resolve`, the type that an
annotation stands for. `Prelude.resolveWith` also refuses types, as a reader with bounded stages does.
-/

namespace Multistage

/-- What a program is written for. -/
inductive Mode where
  | general
  | shader
  deriving DecidableEq, Inhabited, Repr

/-- The name of a mode. -/
def Mode.text : Mode → String
  | .general => "General"
  | .shader => "Shader"

/-- Names and their types; of two entries with one name the first counts. -/
abbrev Vocabulary := List (String × Ty)

namespace Vocabulary

/-- The type of a name. -/
def get? (v : Vocabulary) (name : String) : Option Ty := Scope.newest? name v

/-- Add a name or replace its type. -/
def insert (v : Vocabulary) (name : String) (type : Ty) : Vocabulary := (name, type) :: v

/-- The entries that count, by name. -/
def sorted (v : Vocabulary) : List (String × Ty) :=
  (Scope.visible [] v).mergeSort fun a b => decide (a.1 ≤ b.1)

end Vocabulary

/-- The types and intrinsics of a mode. -/
structure Prelude where
  mode : Mode
  intrinsics : Vocabulary
  types : Vocabulary
  deriving Inhabited, Repr

namespace Prelude

/-- Base types and conversions. -/
def general : Prelude where
  mode := .general
  types := [("Int", .int), ("Float", .float), ("String", .string), ("Void", .void)]
  intrinsics := [("float", .function [.int] .float), ("int", .function [.float] .int)]

/-- Vector and matrix types, and the functions on them. -/
def shader : Prelude :=
  let float3 := Ty.prim "Float3"
  let float4 := Ty.prim "Float4"
  let mat4 := Ty.prim "Mat4"
  let mesh := Ty.prim "Mesh"
  { mode := .shader
    types := general.types ++
      [("Float2", .prim "Float2"), ("Float3", float3), ("Float4", float4), ("Mat3", .prim "Mat3"),
        ("Mat4", mat4), ("Mesh", mesh)]
    intrinsics := general.intrinsics ++
      [("gl_Position", float4), ("gl_FragColor", float4),
        ("vec4", .function [float3, .float] float4), ("vec3", .function [float4] float3),
        ("normalize", .function [float3] float3), ("abs", .function [float3] float3),
        ("reflect", .function [float3, float3] float3), ("dot", .function [float3, float3] .float),
        ("max", .function [.float, .float] .float), ("pow", .function [.float, .float] .float),
        ("mesh_positions", .function [mesh] float3), ("mesh_normals", .function [mesh] float3),
        ("mesh_size", .function [mesh] .int),
        ("projection", mat4), ("view", mat4), ("model", mat4)] }

def ofMode : Mode → Prelude
  | .general => general
  | .shader => shader

section Resolve

variable {ε : Type} [MonadLiftT (Except Fault) (Except ε)]
variable (p : Prelude) (accept : Ty → Except ε Ty) (node : NodeId)

mutual
/-- The type that an annotation stands for, with every type on the way to it admitted; an unknown name is
a fault of `node`. -/
def resolveWith : TypeExpr → Except ε Ty
  | .named name =>
    match p.types.get? name with
    | some type => accept type
    | none => (Fault.unknownType node name).raise
  | .code inner => do
    let type ← resolveWith inner
    accept (type.shift 1)
  | .arrow params result => do
    let params ← resolveAllWith params
    let result ← resolveWith result
    return .function params result

/-- The types that several annotations stand for. -/
def resolveAllWith : List TypeExpr → Except ε (List Ty)
  | [] => .ok []
  | a :: rest => do
    let type ← resolveWith a
    let types ← resolveAllWith rest
    return type :: types
end

/-- The type that an annotation stands for, at any stage. -/
def resolve (written : TypeExpr) : Except Fault Ty := p.resolveWith .ok node written

/-- The types that several annotations stand for. -/
def resolveAll (written : List TypeExpr) : Except Fault (List Ty) := p.resolveAllWith .ok node written

theorem resolve_named (name : String) : p.resolve node (.named name) =
    match p.types.get? name with
    | some type => .ok type
    | none => .error (.unknownType node name) := by
  rw [resolve, resolveWith]
  rfl

theorem resolve_code (inner : TypeExpr) :
    p.resolve node (.code inner) = p.resolve node inner >>= fun type => pure (type.shift 1) := by
  rw [resolve, resolveWith]
  rfl

theorem resolve_arrow (params : List TypeExpr) (result : TypeExpr) : p.resolve node (.arrow params result) =
    p.resolveAll node params >>= fun types => p.resolve node result >>= fun type =>
      pure (.function types type) := by
  rw [resolve, resolveWith]
  rfl

theorem resolveAll_nil : p.resolveAll node [] = .ok [] := by
  rw [resolveAll, resolveAllWith]

theorem resolveAll_cons (first : TypeExpr) (rest : List TypeExpr) : p.resolveAll node (first :: rest) =
    p.resolve node first >>= fun type => p.resolveAll node rest >>= fun types => pure (type :: types) := by
  rw [resolveAll, resolveAllWith]
  rfl

end Resolve

end Prelude

end Multistage
