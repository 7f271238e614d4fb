import Multistage.Fragment.Basic

/-!
# Variants of fragments

A fragment with holes has one variant for each way of filling them: every hole takes the body of one of
the snippets that can fill it, and holes that come in with a snippet are filled in the next round.

Main definitions:

* `crossProduct`, all ways of taking one element from each list;
* `Fragment.fill`, one round for one choice of snippets;
* `Fragment.variants?` and `variantTable`, all variants of a fragment and of all fragments.
-/

namespace Multistage

/-- All ways of taking one element from each list; the first one varies slowest. There is none for no
lists at all. -/
def crossProduct {α : Type} : List (List α) → List (List α)
  | [] => []
  | [set] => set.map fun a => [a]
  | set :: rest =>
    let combinations := crossProduct rest
    set.flatMap fun a => combinations.map (a :: ·)

/-- Add the elements of `extra` that are not there yet. -/
def unionInto (list extra : List NodeId) : List NodeId := extra.foldl addNew list

/-- Give the escapes of one fragment to another. -/
def rehome (source target : NodeId) (records : List EscapeRecord) : List EscapeRecord :=
  records.map fun r => if r.owner = source then { r with owner := target } else r

namespace Fragment

/-- Take over what is recorded of a snippet, whose code becomes code of `target`. -/
def absorb (target : NodeId) (f snippet : Fragment) : Fragment :=
  let move := rehome snippet.id target
  { f with
    persist := move (f.persist ++ snippet.persist)
    splice := move (f.splice ++ snippet.splice)
    ownPersist := move (f.ownPersist ++ snippet.ownPersist)
    ownSplice := move (f.ownSplice ++ snippet.ownSplice)
    ownSnippet := move (f.ownSnippet ++ snippet.ownSnippet)
    free := unionInto f.free snippet.free
    bound := unionInto f.bound snippet.bound }

/-- The snippets that can fill each hole of a fragment. -/
def options (fragments : Table Fragment) (f : Fragment) : Except Fault (List (List NodeId)) :=
  f.ownSnippet.mapM fun hole =>
    match (fragments.values.filter (·.fills = some hole.id)).map (·.id) with
    | [] => .error (.unfilledHole hole.id)
    | ids => .ok ids

/-- The snippets of a choice, each with the hole that it fills. -/
def chosen (fragments : Table Fragment) (f : Fragment) (choice : List NodeId) :
    Except Fault (List (NodeId × Fragment)) :=
  (f.ownSnippet.zip choice).mapM fun (hole, id) =>
    match fragments.get? id with
    | some snippet => .ok (hole.id, snippet)
    | none => .error (.unfilledHole hole.id)

/-- Fill the holes of a fragment. Its new holes are those of the snippets. -/
def fill (fragments : Table Fragment) (f : Fragment) (choice : List NodeId) :
    Except Fault Fragment := do
  let snippets ← f.chosen fragments choice
  let bodies := Table.ofList (snippets.map fun (hole, snippet) => (hole, snippet.body))
  let merged := snippets.foldl (fun v (_, snippet) => v.absorb f.id snippet) { f with ownSnippet := [] }
  return { merged with body := f.body.substitute bodies.get? }

end Fragment

/-- A fragment in which some holes have been filled. -/
structure PartialVariant where
  /-- the snippets chosen so far -/
  config : List NodeId := []
  fragment : Fragment
  /-- the holes filled so far -/
  filled : List NodeId := []
  deriving Inhabited, Repr

namespace PartialVariant

/-- Whether no hole is left. -/
def isDone (p : PartialVariant) : Bool := p.fragment.ownSnippet.isEmpty

/-- Fill the holes in every possible way. A hole that has been filled before means that some snippet
contains itself. -/
def expand (fragments : Table Fragment) (p : PartialVariant) : Except Fault (List PartialVariant) :=
  match p.fragment.ownSnippet.find? fun hole => hole.id ∈ p.filled with
  | some hole => .error (.invalidSnippet hole.id .containsItself)
  | none => do
    let options ← p.fragment.options fragments
    (crossProduct options).mapM fun choice => do
      let fragment ← p.fragment.fill fragments choice
      return ⟨p.config ++ choice, fragment, p.filled ++ p.fragment.ownSnippet.map (·.id)⟩

/-- One round: expand everything that is not done. -/
def round (fragments : Table Fragment) (ps : List PartialVariant) :
    Except Fault (List PartialVariant) := do
  let next ← ps.mapM fun p => if p.isDone then .ok [p] else p.expand fragments
  return next.flatten

/-- Rounds until all is done, at most `fuel` of them. -/
def rounds (fragments : Table Fragment) : (fuel : Nat) → List PartialVariant →
    Except Fault (List PartialVariant)
  | 0, ps => .ok ps
  | fuel + 1, ps =>
    if ps.all isDone then .ok ps
    else do
      let next ← round fragments ps
      rounds fragments fuel next

end PartialVariant

/-- One way of filling the holes of a fragment. -/
structure Variant where
  fragment : NodeId
  /-- the chosen snippets: one for each hole, then for the holes of those, and so on -/
  config : List NodeId
  /-- the fragments that take the place of others -/
  fragments : Table Fragment
  deriving Inhabited, Repr

/-- All fragments, with those of the variant in their place. -/
def Variant.overlay (v : Variant) (fragments : Table Fragment) : Table Fragment :=
  fragments.insertAll v.fragments.entries

/-- The number of holes in a list of fragments. -/
def holeCount (fragments : List Fragment) : Nat := (fragments.flatMap (·.ownSnippet)).length

/-- All variants of a fragment, if it has holes. Every round fills holes that were not filled before,
so there are no more rounds than holes, and one more to find out that a snippet contains itself. -/
def Fragment.variants? (fragments : Table Fragment) (f : Fragment) :
    Except Fault (Option (List Variant)) :=
  if f.ownSnippet.isEmpty then .ok none
  else do
    let fuel := holeCount (f :: fragments.values) + 1
    let done ← PartialVariant.rounds fragments fuel [{ fragment := f }]
    return some (done.map fun p => ⟨f.id, p.config, Table.empty.insert f.id p.fragment⟩)

/-- The variants of each fragment; a fragment without holes has none. -/
abbrev VariantTable := Table (Option (List Variant))

/-- The variants of all fragments. -/
def variantTable (fragments : Table Fragment) : Except Fault VariantTable := do
  let entries ← fragments.values.mapM fun f => do return (f.id, ← f.variants? fragments)
  return Table.ofList entries

end Multistage
