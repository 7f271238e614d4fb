import Mathlib.Data.List.Perm.Basic
import Multistage.Proofs.UnitRecords

/-!
# Where names are resolved

The walk that splits a program into units comes to each node with the definitions that are in scope there.
`Term.stations` lists the nodes with these scopes and with the paths that lead to them, and `Term.findingsAt` is
what the walk finds at a node itself. What it finds in a term is what it finds at all of its nodes
(`Term.perm_findings`), so that facts about findings, other than their order, are read off one node at a time.

Main statement: `Term.get?_uses_iff`, a name that is used is linked to the definition that is in scope where it
is used.
-/

namespace Multistage

/-! ## Nodes with the definitions in scope -/

namespace Term

/-- The definitions in scope at the children of a node, one scope for each child. -/
def scopesInside (scope : Scope NodeId) : Term → List (Scope NodeId)
  | .seq _ lhs _ | .binary _ _ lhs _ => [scope, lhs.scopeAfter scope]
  | .lambda _ params _ => [scope.extendAll (params.map fun param => (param.name, param.id))]
  | t => t.children.map fun _ => scope

/-- The children of a node, each with the definitions in scope at it. -/
def parts (scope : Scope NodeId) (t : Term) : List (Scope NodeId × Term) := (t.scopesInside scope).zip t.children

end Term

/-- A node as the walk comes to it: with the nodes around it, outermost first, and the definitions in scope. -/
structure Station where
  path : List Term
  scope : Scope NodeId
  node : Term

namespace Term

/-- All nodes of a term at the end of a path, as the walk comes to them. -/
def stations : Term → (above : List Term) → Scope NodeId → List Station :=
  fold fun t below above scope =>
    ⟨above, scope, t⟩ ::
      (List.zipWith (fun inner stations => stations (above ++ [t]) inner) (t.scopesInside scope) below).flatten

variable {t : Term} {root : NodeId} {above : List Term} {scope : Scope NodeId} {position : Position}

theorem stations_eq (t : Term) (above : List Term) (scope : Scope NodeId) : t.stations above scope =
    ⟨above, scope, t⟩ :: (t.parts scope).flatMap fun part => part.2.stations (above ++ [t]) part.1 := by
  rw [stations, fold_eq, List.zipWith_map_right, ← List.map_uncurry_zip_eq_zipWith, List.flatMap_def]
  rfl

theorem map_snd_parts (scope : Scope NodeId) (t : Term) : (t.parts scope).map (·.2) = t.children := by
  have hlength : (t.scopesInside scope).length = t.children.length := by
    cases t <;> simp [scopesInside, children]
  exact List.map_snd_zip (Nat.le_of_eq hlength.symm)

theorem mem_children_of_parts {part : Scope NodeId × Term} (h : part ∈ t.parts scope) : part.2 ∈ t.children := by
  rw [← map_snd_parts scope]
  exact List.mem_map_of_mem h

theorem parts_call {site : Site} {callee : Term} {args : List Term} :
    (Term.call site callee args).parts scope = (scope, callee) :: args.map fun arg => (scope, arg) := by
  have hargs : (args.map fun _ => scope).zip args = args.map fun arg => (scope, arg) := by
    induction args with
    | nil => rfl
    | cons arg rest ih => exact congrArg ((scope, arg) :: ·) ih
  exact congrArg ((scope, callee) :: ·) hargs

/-- The nodes and the paths to them are those of the term. -/
theorem map_stations (t : Term) (above : List Term) (scope : Scope NodeId) :
    (t.stations above scope).map (fun e => (e.path, e.node)) = t.lineages above := by
  induction t using induct_children generalizing above scope with
  | step t ih =>
    rw [stations_eq, lineages_eq, List.map_cons, List.map_flatMap, ← map_snd_parts scope, List.flatMap_map]
    refine congrArg _ (List.flatMap_congr fun part hpart => ?_)
    exact ih part.2 (mem_children_of_parts hpart) _ _

theorem mem_lineages_of_stations {e : Station} (h : e ∈ t.stations above scope) :
    (e.path, e.node) ∈ t.lineages above := by
  rw [← map_stations t above scope]
  exact List.mem_map_of_mem h

/-! ## What is found at a node -/

/-- What the walk finds at a node, apart from what it finds in its children. -/
def findingsAt (position : Position) (scope : Scope NodeId) : Term → List Finding
  | .define site _ value => .definition position.home site.id :: value.givenTo (some site.id)
  | .assign site name value =>
    .use position.home site.id (scope.lookup? name) :: value.givenTo (scope.lookup? name)
  | .lookup site name => [.use position.home site.id (scope.lookup? name)]
  | .host site _ _ => [.definition position.home site.id]
  | .quote site label snippet body =>
    [.fragment position { id := site.id, body, label, snippet, parent := position.fragments.head? }]
  | .escape site kind body => position.fragments.head?.toList.map fun owner => .escape kind ⟨site.id, body, owner⟩
  | .lambda site params body =>
    procedureAt site params body position ++
      params.map fun param => .definition (position.called site.id).home param.id
  | _ => []

theorem snippet_of_givenTo {given : Option NodeId} {x : Finding} (h : x ∈ t.givenTo given) :
    ∃ definition snippet, x = .snippet definition snippet := by
  unfold givenTo at h
  split at h
  · exact ⟨_, _, List.mem_singleton.1 h⟩
  · cases h

/-- What is found in a term is found at its root or in its children. -/
theorem perm_findings_parts (h : t.tag = .escape → position.fragments ≠ []) :
    (t.findings position scope).Perm (t.findingsAt position scope ++
      (t.parts scope).flatMap fun part => part.2.findings (t.positionInside position) part.1) := by
  cases t with
  | literal | held | lookup | host => exact .refl _
  | unary _ _ u | run _ u => exact .of_eq (List.append_nil _).symm
  | seq _ l r | binary _ _ l r =>
    refine .of_eq ?_
    rw [findings]
    simp [findingsAt, parts, scopesInside, children, positionInside]
  | define s name value | assign s name value =>
    -- the value is looked into first
    refine List.perm_append_comm.trans ?_
    exact (List.Perm.of_eq (List.append_nil _).symm).append_left _
  | quote s label snippet body =>
    exact .of_eq (congrArg (_ :: ·) (List.append_nil _).symm)
  | escape s kind body =>
    cases hfragments : position.fragments with
    | nil => exact absurd hfragments (h rfl)
    | cons owner outer =>
      refine .of_eq ?_
      rw [findings]
      simp [findingsAt, parts, scopesInside, children, positionInside, hfragments]
  | lambda s params body =>
    refine .of_eq ?_
    rw [findings]
    simp [findingsAt, parts, scopesInside, children, positionInside]
  | call s callee args =>
    refine .of_eq ?_
    -- the arguments are parts in the scope of the call
    rw [findings, findingsAll_eq, parts_call, List.flatMap_cons, List.flatMap_map]
    rfl

/-- What is found in a term is found at its nodes. -/
theorem perm_findings (root : NodeId) (h : t.EscapesInside (openQuotes above).length) (scope : Scope NodeId) :
    (t.findings (Position.along root above) scope).Perm
      ((t.stations above scope).flatMap fun e => e.node.findingsAt (Position.along root e.path) e.scope) := by
  induction t using induct_children generalizing above scope with
  | step t ih =>
    have hopen : t.tag = .escape → (Position.along root above).fragments ≠ [] := by
      intro htag hnil
      have hlevel := (escapesInside_iff.1 h).1 htag
      rw [← Position.fragments_along root, hnil] at hlevel
      cases hlevel
    refine (perm_findings_parts hopen).trans ?_
    rw [stations_eq, List.flatMap_cons, List.flatMap_assoc, ← Position.along_concat]
    refine List.Perm.append_left _ (List.Perm.flatMap_left _ fun part hpart => ?_)
    have hchild := mem_children_of_parts hpart
    exact ih part.2 hchild (h.along hchild) part.1

theorem mem_findings_iff (h : t.EscapesInside (openQuotes []).length) {x : Finding} :
    x ∈ t.findings ⟨t.id, []⟩ {} ↔
      ∃ e ∈ t.stations [] {}, x ∈ e.node.findingsAt (Position.along t.id e.path) e.scope :=
  (perm_findings t.id h {}).mem_iff.trans List.mem_flatMap

/-! ## Uses of names -/

/-- The name that a node uses: one that is looked up, or the target of an assignment. -/
def usedName? : Term → Option String
  | .lookup _ name | .assign _ name _ => some name
  | _ => none

/-- A node uses a name that stands for a definition in the scope that the walk has there. -/
def Resolves (t : Term) (user definition : NodeId) : Prop :=
  ∃ e ∈ t.stations [] {}, e.node.id = user ∧
    ∃ name, e.node.usedName? = some name ∧ e.scope.lookup? name = some definition

/-- A use is found at a node exactly if the node uses a name, in its own unit and under its own identity. -/
theorem use_mem_findingsAt {home : Home} {user : NodeId} {definition : Option NodeId} :
    .use home user definition ∈ t.findingsAt position scope ↔
      home = position.home ∧ user = t.id ∧ ∃ name, t.usedName? = some name ∧ definition = scope.lookup? name := by
  have hgiven : ∀ (value : Term) d, .use home user definition ∉ value.givenTo d := by
    intro value d hmem
    rcases snippet_of_givenTo hmem with ⟨_, _, heq⟩
    cases heq
  cases t with
  | lambda s params body =>
    simp only [findingsAt, procedureAt, usedName?]
    cases position.fragments <;> simp
  | _ => simp [findingsAt, usedName?, hgiven, Term.id, Term.site]

theorem map_id_stations (t : Term) (above : List Term) (scope : Scope NodeId) :
    (t.stations above scope).map (·.node.id) = t.ids := by
  rw [ids, ← t.map_snd_lineages above, ← map_stations t above scope, List.map_map, List.map_map]
  rfl

/-- In a program with different identities, the walk comes to an identity once. -/
theorem station_unique (hids : t.ids.Nodup) {e e' : Station} (h : e ∈ t.stations above scope)
    (h' : e' ∈ t.stations above scope) (hid : e.node.id = e'.node.id) : e = e' := by
  rw [← map_id_stations t above scope] at hids
  exact List.inj_on_of_nodup_map hids h h' hid

theorem Resolves.unique (hids : t.ids.Nodup) {user d d' : NodeId} (h : t.Resolves user d)
    (h' : t.Resolves user d') : d = d' := by
  rcases h with ⟨e, he, hid, name, hname, hd⟩
  rcases h' with ⟨e', he', hid', name', hname', hd'⟩
  obtain rfl := station_unique hids he he' (hid.trans hid'.symm)
  cases hname.symm.trans hname'
  exact Option.some.inj (hd.symm.trans hd')

end Term

/-! ## The table of uses -/

namespace Survey

variable {s : Survey} {user d : NodeId}

/-- A use of a name is only ever written down where it is found. -/
theorem use_of_get?_noteAll {xs : List Finding} (h : (s.noteAll xs).uses.get? user = some d) :
    s.uses.get? user = some d ∨ ∃ home, .use home user (some d) ∈ xs := by
  induction xs generalizing s with
  | nil => exact .inl h
  | cons x rest ih =>
    rcases ih h with hbefore | ⟨home, hmem⟩
    · rw [(uses_snippets_note s x).1] at hbefore
      unfold Finding.onUses at hbefore
      split at hbefore
      · next home user' d' =>
        rw [Table.get?_insert] at hbefore
        split at hbefore
        · next huser =>
          cases hbefore
          exact .inr ⟨home, huser ▸ List.mem_cons_self⟩
        · exact .inl hbefore
      · exact .inl hbefore
    · exact .inr ⟨home, List.mem_cons_of_mem _ hmem⟩

/-- Once it is written down, a use has a definition. -/
theorem get?_uses_noteAll_ne_none {xs : List Finding}
    (h : s.uses.get? user ≠ none ∨ ∃ home d, .use home user (some d) ∈ xs) :
    (s.noteAll xs).uses.get? user ≠ none := by
  induction xs generalizing s with
  | nil => exact h.resolve_right fun hmem => by simp at hmem
  | cons x rest ih =>
    rw [noteAll_cons]
    apply ih
    rw [(uses_snippets_note s x).1]
    rcases h with hbefore | ⟨home, d, hmem⟩
    · left
      unfold Finding.onUses
      split
      · rw [Table.get?_insert]
        split
        · exact Option.some_ne_none _
        · exact hbefore
      · exact hbefore
    · rcases List.mem_cons.1 hmem with rfl | hmem
      · left
        simp [Finding.onUses]
      · exact .inr ⟨home, d, hmem⟩

end Survey

/-- In a program with different identities, a name that is used is linked to the definition in scope. -/
theorem Term.get?_uses_iff {t : Term} (hids : t.ids.Nodup) (hinside : t.EscapesInside (openQuotes []).length)
    {user d : NodeId} : t.survey.uses.get? user = some d ↔ t.Resolves user d := by
  have hresolves : ∀ d, t.survey.uses.get? user = some d → t.Resolves user d := by
    intro d hget
    rcases Survey.use_of_get?_noteAll hget with hstart | ⟨home, hmem⟩
    · cases hstart
    · rcases (mem_findings_iff hinside).1 hmem with ⟨e, he, hfound⟩
      rcases use_mem_findingsAt.1 hfound with ⟨-, huser, name, hname, hd⟩
      exact ⟨e, he, huser.symm, name, hname, hd.symm⟩
  refine ⟨hresolves d, fun h => ?_⟩
  have hsome : t.survey.uses.get? user ≠ none := by
    rcases h with ⟨e, he, huser, name, hname, hd⟩
    refine Survey.get?_uses_noteAll_ne_none (.inr ⟨(Position.along t.id e.path).home, d, ?_⟩)
    exact (mem_findings_iff hinside).2 ⟨e, he, use_mem_findingsAt.2 ⟨rfl, huser.symm, name, hname, hd.symm⟩⟩
  rcases Option.ne_none_iff_exists'.1 hsome with ⟨d', hd'⟩
  rw [hd', h.unique hids (hresolves d' hd')]

end Multistage
