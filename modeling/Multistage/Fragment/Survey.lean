import Multistage.Fragment.Basic

/-!
# Splitting a program into units

`Survey.walk` goes through a program in evaluation order. It opens a unit for every quote and for every
function outside quotes, resolves names to definitions, and lists each escape with the innermost quote
that is still open. `Survey.link` then finds out which snippets fill which holes, and
`Survey.collect` adds up the escapes of nested fragments.

Main definition: `Blueprint.ofTerm`.
-/

namespace Multistage

/-- A unit of code. -/
inductive Home where
  | procedure (id : NodeId)
  | fragment (id : NodeId)
  deriving DecidableEq, Inhabited, Repr

/-- Where the walk is: in a procedure, and under quotes that are still open, innermost first. -/
structure Position where
  procedure : NodeId
  fragments : List NodeId := []
  deriving DecidableEq, Inhabited, Repr

/-- The unit at a position. -/
def Position.home (p : Position) : Home :=
  match p.fragments with
  | [] => .procedure p.procedure
  | id :: _ => .fragment id

/-- What the walk has found. -/
structure Survey where
  uses : Table NodeId := {}
  /-- the unit that each definition is made in -/
  homes : Table Home := {}
  fragments : Table Fragment := {}
  procedures : Table Procedure := {}
  /-- fragments, the last one reached first -/
  order : List NodeId := []
  /-- each snippet with a definition that it is the value of -/
  snippets : List (NodeId × NodeId) := []
  deriving Inhabited, Repr

namespace Survey

/-! ## Records -/

/-- Change the record of a fragment. -/
def changeFragment (s : Survey) (id : NodeId) (f : Fragment → Fragment) : Survey :=
  { s with fragments := s.fragments.modify id f }

/-- Change the record of a procedure. -/
def changeProcedure (s : Survey) (id : NodeId) (f : Procedure → Procedure) : Survey :=
  { s with procedures := s.procedures.modify id f }

/-- Make a definition in a unit. -/
def define (home : Home) (id : NodeId) (s : Survey) : Survey :=
  let s := { s with homes := s.homes.insert id home }
  match home with
  | .procedure p => s.changeProcedure p fun r => { r with bound := r.bound ++ [id] }
  | .fragment f => s.changeFragment f fun r => { r with bound := r.bound ++ [id] }

/-- Use a definition in a unit; it is free there if it was made elsewhere. -/
def use (home : Home) (user definition : NodeId) (s : Survey) : Survey :=
  let s := { s with uses := s.uses.insert user definition }
  if s.homes.get? definition = some home then s
  else
    match home with
    | .procedure p => s.changeProcedure p fun r => { r with free := addNew r.free definition }
    | .fragment f => s.changeFragment f fun r => { r with free := addNew r.free definition }

/-- Note that a snippet is the value of a definition. -/
def addSnippet (definition snippet : NodeId) (s : Survey) : Survey :=
  { s with snippets := s.snippets ++ [(definition, snippet)] }

/-- Open a fragment in a unit. -/
def openFragment (home : Home) (fragment : Fragment) (s : Survey) : Survey :=
  let s := { s with
    fragments := s.fragments.insert fragment.id fragment
    order := fragment.id :: s.order }
  match home with
  | .procedure p => s.changeProcedure p fun r => { r with quotes := r.quotes ++ [fragment.id] }
  | .fragment f => s.changeFragment f fun r => { r with nested := r.nested ++ [fragment.id] }

/-- Open a procedure in another one. -/
def openProcedure (parent : NodeId) (procedure : Procedure) (s : Survey) : Survey :=
  { s with procedures := s.procedures.insert procedure.id procedure }.changeProcedure parent fun r =>
    { r with children := r.children ++ [procedure.id] }

/-- List an escape with its owner. -/
def addEscape (kind : EscapeKind) (record : EscapeRecord) (s : Survey) : Survey :=
  s.changeFragment record.owner fun r =>
    match kind with
    | .persist => { r with ownPersist := r.ownPersist ++ [record] }
    | .splice => { r with ownSplice := r.ownSplice ++ [record] }
    | .snippet => { r with ownSnippet := r.ownSnippet ++ [record] }

end Survey

/-- The identity of a quote that is marked as a snippet. -/
def Term.snippet? : Term → Option NodeId
  | .quote site _ true _ => some site.id
  | _ => none

/-! ## The walk -/

/-- A walk that records what it finds. -/
abbrev Surveying := StateT Survey (Except Fault)

namespace Surveying

/-- Resolve a name at a position, if it is not an intrinsic. -/
def resolve (position : Position) (user : NodeId) (name : String) (scope : Scope NodeId) :
    Surveying (Option NodeId) :=
  match scope.lookup? name with
  | none => return none
  | some definition => do
    modify (Survey.use position.home user definition)
    return some definition

mutual
/-- Walk through a term, given the definitions in scope; the result is the scope after it. -/
def walk : Term → Position → Scope NodeId → Surveying (Scope NodeId)
  | .literal .., _, scope | .held .., _, scope => return scope
  | .seq _ lhs rhs, position, scope => do
    let scope ← walk lhs position scope
    walk rhs position scope
  | .define site name value, position, scope => do
    let _ ← walk value position scope
    modify (Survey.define position.home site.id)
    if let some snippet := value.snippet? then
      modify (Survey.addSnippet site.id snippet)
    return scope.extend name site.id
  | .assign site name value, position, scope => do
    let _ ← walk value position scope
    match ← resolve position site.id name scope, value.snippet? with
    | some definition, some snippet => modify (Survey.addSnippet definition snippet)
    | _, _ => pure ()
    return scope
  | .lookup site name, position, scope => do
    let _ ← resolve position site.id name scope
    return scope
  | .unary _ _ operand, position, scope => do
    let _ ← walk operand position scope
    return scope
  | .binary _ _ lhs rhs, position, scope => do
    let inner ← walk lhs position scope
    let _ ← walk rhs position inner
    return scope
  | .call _ callee args, position, scope => do
    let _ ← walk callee position scope
    walkAll args position scope
    return scope
  | .run _ body, position, scope => walk body position scope
  | .host site name _, position, scope => do
    modify (Survey.define position.home site.id)
    return scope.extend name site.id
  | .quote site label snippet body, position, scope => do
    modify (Survey.openFragment position.home
      { id := site.id, body, label, snippet, parent := position.fragments.head? })
    let _ ← walk body { position with fragments := site.id :: position.fragments } scope
    return scope
  | .escape site kind body, position, scope =>
    match position.fragments with
    | [] => throw (.topLevelEscape site.id)
    | owner :: outer => do
      modify (Survey.addEscape kind ⟨site.id, body, owner⟩)
      -- the body belongs to whatever unit is around the owner
      let _ ← walk body { position with fragments := outer } scope
      return scope
  | .lambda site params body, position, scope => do
    let inner ← match position.fragments with
      | [] => do
        modify (Survey.openProcedure position.procedure
          { id := site.id, body, params := params.map (·.id), parent := some position.procedure })
        pure { position with procedure := site.id }
      -- inside a quote a function is part of the fragment
      | _ :: _ => pure position
    for param in params do
      modify (Survey.define inner.home param.id)
    let _ ← walk body inner (scope.extendAll (params.map fun param => (param.name, param.id)))
    return scope

/-- Walk through arguments, all with the same scope. -/
def walkAll : List Term → Position → Scope NodeId → Surveying Unit
  | [], _, _ => return ()
  | t :: rest, position, scope => do
    let _ ← walk t position scope
    walkAll rest position scope
end

end Surveying

namespace Survey

/-! ## Snippets and nested escapes -/

/-- The definition that a hole names. -/
def holeDefinition (uses : Table NodeId) (hole : EscapeRecord) : Except Fault NodeId :=
  match hole.body with
  | .lookup site name =>
    match uses.get? site.id with
    | some definition => .ok definition
    | none => .error (.invalidSnippet hole.id (.notSnippetVariable name))
  | _ => .error (.invalidSnippet hole.id .notVariable)

/-- Let a snippet fill a hole. A snippet fills one hole at most. -/
def assignHole (hole : NodeId) (fragments : Table Fragment) (snippet : NodeId) :
    Except Fault (Table Fragment) :=
  match fragments.get? snippet with
  | none => .ok fragments
  | some f =>
    match f.fills with
    | some other => .error (.invalidSnippet snippet (.alreadyFills other))
    | none => .ok (fragments.modify snippet fun f => { f with fills := some hole })

/-- The snippets that are values of a definition. -/
def snippetsOf (s : Survey) (definition : NodeId) : List NodeId :=
  (s.snippets.filter (·.1 = definition)).map (·.2)

/-- Let all snippets of a hole's variable fill the hole. -/
def linkHole (s : Survey) (fragments : Table Fragment) (hole : EscapeRecord) :
    Except Fault (Table Fragment) := do
  let definition ← holeDefinition s.uses hole
  (s.snippetsOf definition).foldlM (assignHole hole.id) fragments

/-- Find out which snippets fill which holes, fragment by fragment. -/
def link (s : Survey) : Except Fault Survey := do
  let holes := s.fragments.values.flatMap (·.ownSnippet)
  return { s with fragments := ← holes.foldlM s.linkHole s.fragments }

/-- A fragment's own escapes followed by those listed for its nested fragments. -/
def collectInto (fragments : Table Fragment) (f : Fragment) : Fragment :=
  let nested := f.nested.filterMap fragments.get?
  { f with
    persist := f.ownPersist ++ nested.flatMap (·.persist)
    splice := f.ownSplice ++ nested.flatMap (·.splice) }

/-- List the escapes of nested fragments with the fragments around them, innermost first. -/
def collect (s : Survey) : Survey :=
  { s with fragments := s.order.foldl (fun fs id => fs.modify id (collectInto fs)) s.fragments }

end Survey

/-- The units of a term that has no implicit references across stages. -/
def Blueprint.ofTerm (t : Term) (types : TypeTable) : Except Fault Blueprint := do
  let main : Procedure := { id := t.id, body := t, params := [], parent := none }
  let start : Survey := { procedures := Table.empty.insert t.id main }
  let (_, survey) ← (Surveying.walk t ⟨t.id, []⟩ {}).run start
  let survey ← survey.link
  let survey := survey.collect
  match survey.procedures.get? t.id with
  | none => throw (.typeMismatch t.id .noMain)
  | some main =>
    return {
      types
      uses := survey.uses
      fragments := survey.fragments
      procedures := survey.procedures.erase t.id
      main }

end Multistage
