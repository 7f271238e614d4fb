import Multistage.Term.Basic

/-!
# Programs

A program is a term together with the supply of identities for nodes that later passes add to it.
`Program.ofTerm?` prepares the supply so that it never hands out an identity of the term.
-/

namespace Multistage

/-- A term and a supply of identities. -/
structure Program where
  root : Term
  supply : Supply
  deriving Inhabited, Repr

namespace Term

/-- The identities of all nodes and parameters: each node, then its parameters, then its children. -/
def allIds (t : Term) : List NodeId := t.nodes.flatMap fun node => node.id :: node.params.map (·.id)

end Term

/-- A program whose supply lies above all identities of the term. There is none if the term uses the
last identity. -/
def Program.ofTerm? (root : Term) : Option Program :=
  (root.allIds.foldlM Supply.reserve? {}).map fun supply => ⟨root, supply⟩

end Multistage
