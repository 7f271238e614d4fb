import Multistage.Typing.Check

/-!
# Fragments and procedures

A program falls into units: one fragment for each quote, and one procedure for each function that
stands outside all quotes, besides the main procedure. Names are bound and used in a unit, and the
escapes of a fragment are listed with it.

Main definitions: `Fragment`, `Procedure`, and `Blueprint`, the units of a program together with the
definition of every used name.
-/

namespace Multistage

/-- An escape, with the fragment that it currently belongs to. -/
structure EscapeRecord where
  id : NodeId
  body : Term
  owner : NodeId
  deriving Inhabited, Repr

/-- The code of one quote, under the identity of the quote. -/
structure Fragment where
  id : NodeId
  body : Term
  label : Option String
  /-- whether the quote may fill holes -/
  snippet : Bool
  /-- the innermost fragment around this one -/
  parent : Option NodeId
  /-- persist escapes here and in nested fragments -/
  persist : List EscapeRecord := []
  /-- splice escapes here and in nested fragments -/
  splice : List EscapeRecord := []
  ownPersist : List EscapeRecord := []
  ownSplice : List EscapeRecord := []
  /-- the holes of this fragment -/
  ownSnippet : List EscapeRecord := []
  /-- definitions used here that are made elsewhere -/
  free : List NodeId := []
  /-- definitions made here -/
  bound : List NodeId := []
  /-- the hole that this fragment can fill -/
  fills : Option NodeId := none
  /-- fragments directly inside this one -/
  nested : List NodeId := []
  deriving Inhabited, Repr

/-- The main program, or a function outside all quotes. -/
structure Procedure where
  id : NodeId
  body : Term
  params : List NodeId
  parent : Option NodeId
  free : List NodeId := []
  bound : List NodeId := []
  /-- fragments directly inside this procedure -/
  quotes : List NodeId := []
  /-- procedures directly inside this one -/
  children : List NodeId := []
  deriving Inhabited, Repr

/-- The units of a program. -/
structure Blueprint where
  types : TypeTable
  /-- the definition of each name that is looked up or assigned; intrinsics have none -/
  uses : Table NodeId
  fragments : Table Fragment
  procedures : Table Procedure
  main : Procedure
  deriving Inhabited, Repr

/-- Add an identity at the end of a list that does not have it. -/
def addNew (list : List NodeId) (id : NodeId) : List NodeId :=
  if id ∈ list then list else list ++ [id]

/-- The fragments that can fill a hole. -/
def Blueprint.candidates (b : Blueprint) : List Fragment :=
  b.fragments.values.filter (·.fills.isSome)

end Multistage
