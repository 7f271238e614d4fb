/-!
# Node identities

Every node of a syntax tree, and every parameter of a function, carries an identity. A `Supply` hands
out identities that no node has yet.

Main definitions:

* `NodeId`: an identity, a 32-bit number written `#n`;
* `Span`: the piece of source text that a node was written as;
* `Supply.fresh?` takes the next identity, `Supply.reserve?` steps over one that is in use;
* `Supply.serve` and `Supply.serveAll` answer requests of both kinds, in any order.

The largest identity, `NodeId.last`, is never handed out: taking it would leave the supply without a
next one.
-/

namespace Multistage

/-- The identity of a syntax node. -/
abbrev NodeId := UInt32

namespace NodeId

/-- The largest identity. -/
def last : NodeId := 4294967295

/-- An identity as it stands in messages. -/
def text (id : NodeId) : String := "#" ++ toString id.toNat

end NodeId

/-- A range of source text, in bytes. Nodes that have no source position are at `0..0`. -/
structure Span where
  start : UInt64 := 0
  stop : UInt64 := 0
  deriving DecidableEq, Inhabited, Repr

/-! ## Fresh identities -/

/-- A supply of identities: all from `next` on are unused. -/
structure Supply where
  next : NodeId := 0
  deriving DecidableEq, Inhabited, Repr

namespace Supply

/-- Take the next identity, or fail if only the last one is left. -/
def fresh? (s : Supply) : Option (NodeId × Supply) :=
  if s.next = NodeId.last then none else some (s.next, ⟨s.next + 1⟩)

/-- Make sure that `id` will not be handed out. There is no room above the last identity. -/
def reserve? (s : Supply) (id : NodeId) : Option Supply :=
  if id = NodeId.last then none else some ⟨max s.next (id + 1)⟩

/-- What can be asked of a supply. -/
inductive Request where
  /-- hand out an identity -/
  | fresh
  /-- never hand out this identity -/
  | reserve (id : NodeId)
  deriving DecidableEq, Inhabited, Repr

/-- How a supply answers a request. -/
inductive Reply where
  | handed (id : NodeId)
  | reserved (id : NodeId)
  /-- there is no room -/
  | failed
  deriving DecidableEq, Inhabited, Repr

/-- Answer a request. If there is no room the supply stays as it is. -/
def serve (s : Supply) : Request → Reply × Supply
  | .fresh =>
    match s.fresh? with
    | some (id, rest) => (.handed id, rest)
    | none => (.failed, s)
  | .reserve id =>
    match s.reserve? id with
    | some rest => (.reserved id, rest)
    | none => (.failed, s)

/-- Answer requests one after another, the failing ones included. -/
def serveAll (s : Supply) : List Request → List Reply × Supply
  | [] => ([], s)
  | request :: requests =>
    let (reply, s) := s.serve request
    let (replies, s) := s.serveAll requests
    (reply :: replies, s)

end Supply

end Multistage
