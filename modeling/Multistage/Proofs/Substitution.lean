import Multistage.Proofs.Tables
import Multistage.Proofs.Terms

/-!
# Filling holes in rounds

`Term.substitute` replaces nodes by their identities and does not look inside what it has put in. A hole
may stand inside a node that is replaced, and one identity may stand for several nodes, so it is not plain
that holes can be filled in rounds, some now and the others later.

The law behind it has no conditions: two substitutions, one after the other, are a single one
(`Term.substitute_substitute`), whose replacements are those of the first with the second carried out in
them. If the second finds nothing in them, this is the union of both.

Main statement: `substitution_in_rounds`.
-/

namespace Multistage

namespace Term

variable {t : Term} {f g : NodeId → Option Term}

theorem substitute_eq (t : Term) (g : NodeId → Option Term) :
    t.substitute g = (g t.id).getD (t.withChildren (t.children.map fun child => child.substitute g)) := by
  rw [substitute, fold_eq]

/-- A substitution that knows none of the nodes of a term leaves it as it is. -/
theorem substitute_eq_self (h : ∀ id ∈ t.ids, g id = none) : t.substitute g = t := by
  induction t using induct_children with
  | step t ih =>
    rw [ids_eq] at h
    rcases List.forall_mem_cons.1 h with ⟨hself, hbelow⟩
    have hchildren : (t.children.map fun child => child.substitute g) = t.children := by
      refine (List.map_congr_left fun child hchild => ?_).trans (List.map_id' _)
      exact ih child hchild fun id hid => hbelow id (List.mem_flatMap.2 ⟨child, hchild, hid⟩)
    rw [substitute_eq, hself, Option.getD_none, hchildren, withChildren_children]

/-- What `f` puts in, with `g` carried out in it, and what `g` puts in where `f` knows nothing. -/
def inTurn (f g : NodeId → Option Term) (id : NodeId) : Option Term :=
  ((f id).map (substitute g)).or (g id)

/-- Two substitutions one after the other are one. -/
theorem substitute_substitute (t : Term) (f g : NodeId → Option Term) :
    (t.substitute f).substitute g = t.substitute (inTurn f g) := by
  induction t using induct_children with
  | step t ih =>
    cases hf : f t.id with
    | some new =>
      -- the node is gone, and with it all holes below it
      have hturn : inTurn f g t.id = some (new.substitute g) := by simp [inTurn, hf]
      rw [substitute_eq t f, hf, Option.getD_some, substitute_eq t (inTurn f g), hturn, Option.getD_some]
    | none =>
      -- the node is rebuilt with its identity, so `g` still finds it
      have hturn : inTurn f g t.id = g t.id := by simp [inTurn, hf]
      have hlength : (t.children.map fun child => child.substitute f).length = t.children.length :=
        List.length_map _
      have hchildren : ((t.children.map fun child => child.substitute f).map fun child => child.substitute g) =
          t.children.map fun child => child.substitute (inTurn f g) := by
        rw [List.map_map]
        exact List.map_congr_left fun child hchild => ih child hchild
      rw [substitute_eq t f, hf, Option.getD_none, substitute_eq _ g, id_withChildren,
        children_withChildren hlength, hchildren, withChildren_withChildren hlength (List.length_map _),
        substitute_eq t (inTurn f g), hturn]

end Term

/-! ## Tables of replacements -/

/-- No key of the table is the identity of a node of the term. -/
def Table.Misses (s : Table Term) (t : Term) : Prop := ∀ id ∈ s.keys, id ∉ t.ids

instance (s : Table Term) (t : Term) : Decidable (s.Misses t) :=
  decidable_of_iff ((s.keys.all fun id => !t.ids.contains id) = true) (by simp [Table.Misses])

variable {first second s : Table Term} {t : Term}

theorem Table.Misses.substitute_eq_self (h : s.Misses t) : t.substitute s.get? = t := by
  refine Term.substitute_eq_self fun id hid => Table.find?_eq_none_iff.2 ?_
  intro hkey
  exact h id hkey hid

/-- If the second table finds nothing in what the first one puts in, then both in turn are their union. -/
theorem inTurn_eq_union (hkeys : ∀ id ∈ first.keys, id ∉ second.keys)
    (hmiss : ∀ new ∈ first.values, second.Misses new) :
    Term.inTurn first.get? second.get? = (first.insertAll second.entries).get? := by
  funext id
  rw [Table.get?_insertAll_entries, Term.inTurn]
  cases hfirst : first.get? id with
  | none => simp
  | some new =>
    have hsecond : second.get? id = none :=
      Table.find?_eq_none_iff.2 (hkeys id (Table.mem_keys.2 ⟨new, hfirst⟩))
    have hnew : new ∈ first.values := List.mem_map.2 ⟨_, Table.get?_eq_some_iff.1 hfirst, rfl⟩
    simp [hsecond, (hmiss new hnew).substitute_eq_self]

/-- Tables without a common key can be joined in any order. -/
theorem union_comm (hkeys : ∀ id ∈ first.keys, id ∉ second.keys) :
    (first.insertAll second.entries).get? = (second.insertAll first.entries).get? := by
  funext id
  rw [Table.get?_insertAll_entries, Table.get?_insertAll_entries]
  cases hfirst : first.get? id with
  | none => simp
  | some new =>
    cases hsecond : second.get? id with
    | none => rfl
    | some other =>
      exact absurd (Table.mem_keys.2 ⟨other, hsecond⟩) (hkeys id (Table.mem_keys.2 ⟨new, hfirst⟩))

/-- **Holes can be filled in rounds.** Take two tables of replacements without a common key, and let no key
of the second be the identity of a node in a replacement of the first. Substituting by the first and then by
the second is substituting by their union. If no key of the first is in a replacement of the second either,
then the order does not matter. And a table none of whose keys is in a term leaves the term as it is. The
term may have an identity at several nodes. -/
theorem substitution_in_rounds (t : Term) :
    (∀ first second : Table Term, (∀ id ∈ first.keys, id ∉ second.keys) →
      (∀ new ∈ first.values, second.Misses new) →
      (t.substitute first.get?).substitute second.get? = t.substitute (first.insertAll second.entries).get? ∧
      ((∀ new ∈ second.values, first.Misses new) →
        (t.substitute first.get?).substitute second.get? = (t.substitute second.get?).substitute first.get?)) ∧
    ∀ s : Table Term, s.Misses t → t.substitute s.get? = t := by
  constructor
  · intro first second hkeys hfirst
    have hunion : (t.substitute first.get?).substitute second.get? =
        t.substitute (first.insertAll second.entries).get? := by
      rw [Term.substitute_substitute, inTurn_eq_union hkeys hfirst]
    refine ⟨hunion, fun hsecond => ?_⟩
    have hkeys' : ∀ id ∈ second.keys, id ∉ first.keys := fun id hid hid' => hkeys id hid' hid
    rw [hunion, union_comm hkeys, Term.substitute_substitute, inTurn_eq_union hkeys' hsecond]
  · intro s hmiss
    exact hmiss.substitute_eq_self

/-- `f([$x], [$x]) + x`, where the two holes share an identity, and so do the three uses of `x`. -/
def repeatedHoles : Term :=
  .binary ⟨0, {}⟩ .add
    (.call ⟨1, {}⟩ (.lookup ⟨2, {}⟩ "f")
      [.escape ⟨3, {}⟩ .snippet (.lookup ⟨4, {}⟩ "x"), .escape ⟨3, {}⟩ .snippet (.lookup ⟨4, {}⟩ "x")])
    (.lookup ⟨4, {}⟩ "x")

/-- One replacement for the holes. -/
def holeFilling : Table Term := Table.ofList [(3, .literal ⟨5, {}⟩ (.int 1))]

/-- One replacement for the uses of `x`, of which two stand in the holes. -/
def useFilling : Table Term := Table.ofList [(4, .unary ⟨6, {}⟩ .neg (.literal ⟨7, {}⟩ (.int 2)))]

/-- In either order the term becomes `f(1, 1) + -2`. -/
theorem substitution_in_rounds_repeatedHoles :
    (∀ id ∈ holeFilling.keys, id ∉ useFilling.keys) ∧ (∀ new ∈ holeFilling.values, useFilling.Misses new) ∧
    (∀ new ∈ useFilling.values, holeFilling.Misses new) ∧
    ∃ filled : Term, filled.ids = [0, 1, 2, 5, 5, 6, 7] ∧
      (repeatedHoles.substitute holeFilling.get?).substitute useFilling.get? = filled ∧
      (repeatedHoles.substitute useFilling.get?).substitute holeFilling.get? = filled ∧
      repeatedHoles.substitute (holeFilling.insertAll useFilling.entries).get? = filled ∧
      useFilling.Misses filled ∧ filled.substitute useFilling.get? = filled := by
  have hkeys : ∀ id ∈ holeFilling.keys, id ∉ useFilling.keys := List.forall_mem_singleton.2 (by decide)
  have hfirst : ∀ new ∈ holeFilling.values, useFilling.Misses new := List.forall_mem_singleton.2 (by decide)
  have hsecond : ∀ new ∈ useFilling.values, holeFilling.Misses new := List.forall_mem_singleton.2 (by decide)
  obtain ⟨filled, hfilled, hids, hmiss⟩ : ∃ filled : Term,
      (repeatedHoles.substitute holeFilling.get?).substitute useFilling.get? = filled ∧
      filled.ids = [0, 1, 2, 5, 5, 6, 7] ∧ useFilling.Misses filled := ⟨_, rfl, rfl, by decide⟩
  obtain ⟨hunion, horder⟩ := (substitution_in_rounds repeatedHoles).1 holeFilling useFilling hkeys hfirst
  refine ⟨hkeys, hfirst, hsecond, filled, hids, hfilled, ?_, ?_, hmiss, ?_⟩
  · exact (horder hsecond).symm.trans hfilled
  · exact hunion.symm.trans hfilled
  · exact (substitution_in_rounds filled).2 useFilling hmiss

end Multistage
