import Multistage.Program
import Multistage.Typing.Check

/-!
# Cross-stage references

A name that is used under more quotes than it is bound under is a reference across stages.
`Program.makeExplicit` wraps every such use in persist escapes, one for each stage crossed, so that later
passes only meet escapes. A use under fewer quotes than the binding is a fault.
-/

namespace Multistage

/-- A pass that takes identities from a supply, and has an obstacle where the supply runs dry. -/
abbrev Staging := StateT Supply (Except Obstacle)

namespace Staging

/-- The next fresh identity. -/
def fresh : Staging NodeId := fun supply =>
  match supply.fresh? with
  | some result => .ok result
  | none => .error .exhausted

def stop {α : Type} (fault : Fault) : Staging α := throw (.fault fault)

end Staging

namespace Term

/-- Wrap a term in `count` persist escapes; the inner ones get their identities first. -/
def persistTimes (t : Term) : Nat → Staging Term
  | 0 => return t
  | count + 1 => do
    let inner ← t.persistTimes count
    let id ← Staging.fresh
    return .escape ⟨id, t.span⟩ .persist inner

/-- Make a use of `name` under `level` quotes explicit, given the scope at it. Names that are not bound
are intrinsics and belong to every stage. -/
def explicitLookup (site : Site) (name : String) (scope : Scope Binding) (level : Nat) :
    Staging Term :=
  match scope.lookup? name with
  | none => return .lookup site name
  | some binding =>
    if binding.level > level then .stop (.downwardReference site.id name)
    else persistTimes (.lookup site name) (level - binding.level)

/-- Make all references across stages explicit, in a term under `level` quotes. -/
def explicitAt (types : TypeTable) : Term → Nat → Staging Term :=
  fold fun t children level =>
    let rebuild (level : Nat) : Staging Term := do
      return t.withChildren (← children.mapM fun child => child level)
    match t with
    | .lookup site name =>
      match types.get? site.id with
      | some j => explicitLookup site name j.scope level
      | none => .stop (.typeMismatch site.id .notElaborated)
    | .quote .. => rebuild (level + 1)
    | .escape .. => rebuild (level - 1)
    | _ => rebuild level

end Term

/-- A program with all references across stages made explicit. -/
def Program.makeExplicit (p : Program) (types : TypeTable) : Except Obstacle Program := do
  let (root, supply) ← (p.root.explicitAt types 0).run p.supply
  return ⟨root, supply⟩

end Multistage
