import Multistage.Term.Basic

/-!
# Dispatch by construct

A `Dispatch` visits a term with one handler for each construct and a fallback for constructs without
one. A handler is given the node, a parameter and the visits of the children, so recursion goes through
the whole table that the handler stands in. Something may also be done around the visit of every node:
observers see every node with its result, after the visit of the node and so after those of its children.

Main definitions: `Dispatch.visit`, `Dispatch.override`, `Dispatch.observe`.
-/

namespace Multistage

variable {m : Type → Type} {P R : Type}

/-- What to do at a node, given the parameter and the visits of its children. -/
abbrev Handler (m : Type → Type) (P R : Type) := Term → P → List (P → m R) → m R

/-- Handlers for some constructs. -/
abbrev Handlers (m : Type → Type) (P R : Type) := Tag → Option (Handler m P R)

/-- A handler for each construct or the fallback, and what is done around the visit of a node. -/
structure Dispatch (m : Type → Type) (P R : Type) where
  handlers : Handlers m P R
  fallback : Handler m P R
  around : Term → P → m R → m R := fun _ _ visit => visit

namespace Dispatch

/-- Whether a construct has a handler of its own. -/
def handles (d : Dispatch m P R) (tag : Tag) : Bool := (d.handlers tag).isSome

/-- Let some handlers take the place of those in the table. -/
def override (d : Dispatch m P R) (handlers : Handlers m P R) : Dispatch m P R :=
  { d with handlers := fun tag => handlers tag <|> d.handlers tag }

/-- Add an observer, which is told of the result of every node after those before it. -/
def observe [Monad m] (d : Dispatch m P R) (observer : Term → P → R → m Unit) : Dispatch m P R :=
  { d with around := fun t param visit => do
      let result ← d.around t param visit
      observer t param result
      return result }

/-- Visit a term. -/
def visit (d : Dispatch m P R) : Term → P → m R :=
  Term.fold fun t children param =>
    d.around t param (((d.handlers t.tag).getD d.fallback) t param children)

/-- Visit the children one after another, all with the same parameter. -/
def visitAll [Monad m] (children : List (P → m R)) (param : P) : m (List R) :=
  children.mapM fun child => child param

/-- A visit goes from a node to its children through the same table. -/
theorem visit_eq (d : Dispatch m P R) (t : Term) (param : P) :
    d.visit t param =
      d.around t param (((d.handlers t.tag).getD d.fallback) t param (t.children.map d.visit)) := by
  rw [visit, Term.fold_eq]

end Dispatch

end Multistage
