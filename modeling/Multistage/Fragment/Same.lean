import Multistage.Fragment.Basic
import Multistage.Term.Same

/-!
# Comparing the units of programs

Two blueprints are the same if they have the same judgements and definitions, and units that agree in
everything. Terms inside units are compared as terms are: the two zeros are the same.
-/

namespace Multistage

/-- Whether two escapes are the same. -/
def EscapeRecord.same (a b : EscapeRecord) : Bool :=
  a.id = b.id && a.owner = b.owner && a.body.same b.body

/-- Whether two lists of escapes are the same, one by one. -/
def EscapeRecord.sameAll (as bs : List EscapeRecord) : Bool :=
  as.length = bs.length && (as.zip bs).all fun (a, b) => a.same b

/-- Whether two fragments are the same. -/
def Fragment.same (a b : Fragment) : Bool :=
  a.id = b.id && a.body.same b.body && a.label = b.label && a.snippet = b.snippet &&
    a.parent = b.parent && EscapeRecord.sameAll a.persist b.persist &&
    EscapeRecord.sameAll a.splice b.splice && EscapeRecord.sameAll a.ownPersist b.ownPersist &&
    EscapeRecord.sameAll a.ownSplice b.ownSplice && EscapeRecord.sameAll a.ownSnippet b.ownSnippet &&
    a.free = b.free && a.bound = b.bound && a.fills = b.fills && a.nested = b.nested

/-- Whether two procedures are the same. -/
def Procedure.same (a b : Procedure) : Bool :=
  a.id = b.id && a.body.same b.body && a.params = b.params && a.parent = b.parent &&
    a.free = b.free && a.bound = b.bound && a.quotes = b.quotes && a.children = b.children

/-- Whether two tables have the same keys with the same values. -/
def Table.sameBy {α : Type} (same : α → α → Bool) (a b : Table α) : Bool :=
  a.keys = b.keys && (a.values.zip b.values).all fun (v, w) => same v w

/-- Whether two blueprints are the same. -/
def Blueprint.same (a b : Blueprint) : Bool :=
  a.types.entries = b.types.entries && a.uses.entries = b.uses.entries &&
    a.fragments.sameBy Fragment.same b.fragments &&
    a.procedures.sameBy Procedure.same b.procedures && a.main.same b.main

end Multistage
