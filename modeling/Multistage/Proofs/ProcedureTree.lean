import Multistage.Proofs.UnitRecords

/-!
# Procedures form a tree

Each function outside quotes is one procedure besides the main one, listed once, as a child of the procedure
around it. A function is opened after the procedure around it, so going up ends at the main procedure
(`Blueprint.climb_to_main`).

The root can be a function itself. Then its record takes the place of that of the main procedure, under the
same identity: the main procedure has parameters, is the body of the function only, and is a child of its own.

Main statement: `procedures_form_tree`.
-/

namespace Multistage

namespace Blueprint

variable {t : Term} {types : TypeTable} {b : Blueprint} {id outer inner : NodeId} {r : Procedure}

/-- The record of a procedure, which can be the main one. -/
def procedure? (b : Blueprint) (id : NodeId) : Option Procedure :=
  if id = b.main.id then some b.main else b.procedures.get? id

/-- The procedure that a procedure names as the one around it. The main procedure has none. -/
def procedureAbove? (b : Blueprint) (id : NodeId) : Option NodeId := (b.procedures.get? id).bind (·.parent)

/-- The main procedure is not among the others. -/
theorem get?_main (hids : t.ids.Nodup) (hb : Blueprint.ofTerm t types = .ok b) :
    b.procedures.get? b.main.id = none := by
  rw [(procedures_of_ofTerm hb).2, main_id hids hb, Table.get?_erase, if_pos rfl]

/-- What the record of a procedure lists is part of what all records list. -/
theorem sublist_placements (hr : b.procedure? id = some r) : (r.placements id).Sublist b.placements := by
  refine List.Sublist.trans ?_ (List.sublist_append_left _ _)
  unfold procedure? at hr
  split at hr
  · next hmain =>
    rw [hmain, ← Option.some.inj hr]
    exact List.sublist_append_left _ _
  · refine List.Sublist.trans ?_ (List.sublist_append_right _ _)
    exact List.sublist_flatten_of_mem
      (List.mem_map_of_mem (f := fun e => Procedure.placements e.2 e.1) (Table.get?_eq_some_iff.1 hr))

/-- A procedure is placed in another one exactly if that lists it as a child. -/
theorem mem_placements_iff_child (hids : t.ids.Nodup) (hb : Blueprint.ofTerm t types = .ok b) :
    (.procedure outer, .procedure inner) ∈ b.placements ↔
      ∃ r, b.procedure? outer = some r ∧ inner ∈ r.children := by
  have hchild : ∀ (r : Procedure) id, (.procedure outer, .procedure inner) ∈ r.placements id ↔
      id = outer ∧ inner ∈ r.children := by
    intro r id
    simp only [Procedure.placements, List.mem_append, List.mem_map, Prod.mk.injEq, reduceCtorEq, and_false,
      exists_false, false_or, Home.procedure.injEq]
    constructor
    · rintro ⟨child, hmem, hid, rfl⟩
      exact ⟨hid, hmem⟩
    · rintro ⟨hid, hmem⟩
      exact ⟨inner, hmem, hid, rfl⟩
  constructor
  · intro h
    rcases List.mem_append.1 h with h | h
    · rcases List.mem_append.1 h with h | h
      · rcases (hchild _ _).1 h with ⟨hmain, hmem⟩
        exact ⟨b.main, if_pos hmain.symm, hmem⟩
      · rcases Table.mem_contents.1 h with ⟨key, r, hr, h⟩
        rcases (hchild _ _).1 h with ⟨rfl, hmem⟩
        refine ⟨r, ?_, hmem⟩
        -- the main procedure is not in the table, so that this is not a second record for it
        have hne : key ≠ b.main.id := by
          rintro rfl
          rw [get?_main hids hb] at hr
          cases hr
        rw [procedure?, if_neg hne]
        exact hr
    · -- fragments list fragments only
      rcases Table.mem_contents.1 h with ⟨key, f, -, h⟩
      rcases List.mem_map.1 h with ⟨child, -, heq⟩
      cases heq
  · rintro ⟨r, hr, hmem⟩
    exact (sublist_placements hr).subset ((hchild r outer).2 ⟨rfl, hmem⟩)

/-- A procedure lists no child twice. -/
theorem nodup_children (hids : t.ids.Nodup) (hb : Blueprint.ofTerm t types = .ok b)
    (hr : b.procedure? id = some r) : r.children.Nodup := by
  have hnodup : (b.placements.map (·.2)).Nodup :=
    ((perm_placements hids hb).map (·.2)).nodup_iff.2 (Term.grows_root hids).nodup.1
  have hunits := ((sublist_placements hr).map (·.2)).nodup hnodup
  rw [Procedure.placements, List.map_append, List.map_map, List.map_map] at hunits
  exact List.Nodup.of_map _ (List.nodup_append.1 hunits).2.1

/-- A procedure is placed in the one that it names as the one around it. -/
theorem placed_in_parent (hids : t.ids.Nodup) (hb : Blueprint.ofTerm t types = .ok b)
    (hr : b.procedures.get? id = some r) :
    ∃ outer, r.parent = some outer ∧ (.procedure outer, .procedure id) ∈ t.placements t.id [] := by
  rcases (procedure_iff hids hb).1 ⟨r, hr, rfl⟩ with ⟨path, site, params, body, hnode, -, hquotes, hid, hhead⟩
  have hparent : r.parent = some (Position.along t.id path).procedure := congrArg Procedure.parent hhead
  refine ⟨_, hparent, Term.mem_placements.2 ⟨path, _, hnode, ?_⟩⟩
  rw [Term.placementAt, Position.fragments_along, if_pos hquotes, hid]
  exact List.mem_singleton.2 rfl

/-- A procedure is listed once by the one that it names as the one around it. -/
theorem child_once (hids : t.ids.Nodup) (hb : Blueprint.ofTerm t types = .ok b)
    (hr : b.procedures.get? id = some r) :
    ∃ outer p, r.parent = some outer ∧ b.procedure? outer = some p ∧ p.children.count id = 1 := by
  rcases placed_in_parent hids hb hr with ⟨outer, hparent, hplaced⟩
  rcases (mem_placements_iff_child hids hb).1 ((perm_placements hids hb).mem_iff.2 hplaced) with ⟨p, hp, hmem⟩
  exact ⟨outer, p, hparent, hp, List.count_eq_one_of_mem (nodup_children hids hb hp) hmem⟩

/-- A procedure that is placed somewhere, other than the root, has a record that names the one around it. -/
theorem record_of_placed (hids : t.ids.Nodup) (hb : Blueprint.ofTerm t types = .ok b) {u : Home}
    (h : (u, .procedure id) ∈ t.placements t.id []) (hne : id ≠ t.id) :
    ∃ outer r, u = .procedure outer ∧ b.procedures.get? id = some r ∧ r.parent = some outer := by
  rcases Term.mem_placements.1 h with ⟨path, node, hnode, hplaced⟩
  unfold Term.placementAt at hplaced
  split at hplaced
  · cases List.mem_singleton.1 hplaced
  · next site params body =>
    split at hplaced
    · next hquotes =>
      cases List.mem_singleton.1 hplaced
      have hpath : path ≠ [] := by
        rcases Term.root_or_below hids hnode with ⟨-, hroot⟩ | ⟨hpath, -⟩
        · exact absurd (congrArg Term.id hroot) hne
        · exact hpath
      rw [Position.fragments_along] at hquotes
      rcases (procedure_iff hids hb).2 ⟨path, site, params, body, hnode, hpath, hquotes, rfl, rfl⟩ with
        ⟨r, hr, hhead⟩
      exact ⟨_, r, rfl, hr, congrArg Procedure.parent hhead⟩
    · cases hplaced
  · cases hplaced

/-- Going up from any unit that is placed as a procedure ends at the main one. -/
theorem climb_of_placed (hids : t.ids.Nodup) (hb : Blueprint.ofTerm t types = .ok b) :
    ∀ x ∈ t.placements t.id [], ∀ id, x.2 = .procedure id →
      ∃ n, climb b.procedureAbove? n id = some b.main.id := by
  have hroot : ∃ n, climb b.procedureAbove? n t.id = some b.main.id := ⟨0, congrArg some (main_id hids hb).symm⟩
  let Ends (u : Home) : Prop := ∀ id, u = .procedure id → ∃ n, climb b.procedureAbove? n id = some b.main.id
  -- units are placed after the units around them, and going up is by induction along that order
  refine (Term.grows_root hids).induction (P := Ends) ?_ ?_ ?_
  · intro u hu id hid
    unfold Term.rootUnits at hu
    split at hu
    · cases hu
    · rw [hid] at hu
      cases List.mem_singleton.1 hu
      exact hroot
  · -- nothing is there before a function as the root, which comes first
    intro hnone x hx id hid
    cases t with
    | lambda site params body =>
      rw [Term.placements_eq] at hx
      cases hx
      cases hid
      exact hroot
    | _ => cases hnone
  · rintro ⟨u, _⟩ hx hends id rfl
    by_cases hself : id = t.id
    · exact hself ▸ hroot
    · -- one step up to the procedure around it, and from there as that one
      rcases record_of_placed hids hb hx hself with ⟨outer, r, houter, hr, hparent⟩
      rcases hends outer houter with ⟨n, hclimb⟩
      refine ⟨n + 1, ?_⟩
      rw [climb, procedureAbove?, hr, Option.bind_some, hparent]
      exact hclimb

theorem climb_to_main (hids : t.ids.Nodup) (hb : Blueprint.ofTerm t types = .ok b)
    (hr : b.procedures.get? id = some r) : ∃ n, climb b.procedureAbove? n id = some b.main.id := by
  rcases placed_in_parent hids hb hr with ⟨outer, -, hplaced⟩
  exact climb_of_placed hids hb _ hplaced id rfl

/-- The procedures that start are those of the table, and the root if it is a function. -/
theorem mem_started (hids : t.ids.Nodup) (hb : Blueprint.ofTerm t types = .ok b) :
    id ∈ ((t.openings t.id []).filterMap Finding.procedure?).map (·.1) ↔
      id ∈ (if t.tag = .lambda then [t.id] else []) ++ b.procedures.keys := by
  rw [List.mem_map, List.mem_append, Table.mem_keys]
  constructor
  · rintro ⟨⟨id, head⟩, hstarts, rfl⟩
    rcases (Term.mem_procedures_openings t.id).1 hstarts with ⟨path, site, params, body, hnode, hquotes, hid, hhead⟩
    rcases Term.root_or_below hids hnode with ⟨-, hroot⟩ | ⟨hpath, -⟩
    · rw [← hroot]
      exact .inl (List.mem_singleton.2 hid.symm)
    · rcases (procedure_iff hids hb).2 ⟨path, site, params, body, hnode, hpath, hquotes, hid, hhead⟩ with ⟨r, hr, -⟩
      exact .inr ⟨r, hr⟩
  · rintro (hroot | ⟨r, hr⟩)
    · split at hroot
      · cases List.mem_singleton.1 hroot
        cases t with
        | lambda site params body =>
          refine ⟨_, (Term.mem_procedures_openings site.id).2 ⟨[], site, params, body, ?_, rfl, rfl, rfl⟩, rfl⟩
          rw [Term.lineages_eq]
          exact List.mem_cons_self
        | _ => contradiction
      · cases hroot
    · rcases (procedure_iff hids hb).1 ⟨r, hr, rfl⟩ with
        ⟨path, site, params, body, hnode, -, hquotes, hid, hhead⟩
      exact ⟨_, (Term.mem_procedures_openings t.id).2 ⟨path, site, params, body, hnode, hquotes, hid, hhead⟩, rfl⟩

/-- The root is not in the table. -/
theorem nodup_started (hids : t.ids.Nodup) (hb : Blueprint.ofTerm t types = .ok b) :
    ((if t.tag = .lambda then [t.id] else []) ++ b.procedures.keys).Nodup := by
  refine List.nodup_append.2 ⟨by split <;> simp, b.procedures.nodup_keys, ?_⟩
  intro id hid id' hid' heq
  have hself : id = t.id := by
    split at hid
    · exact List.mem_singleton.1 hid
    · cases hid
  rcases Table.mem_keys.1 hid' with ⟨r, hr⟩
  rw [← heq, hself, ← main_id hids hb, get?_main hids hb] at hr
  cases hr

/-- The procedures that are placed are the children of all procedures. -/
theorem filterMap_procedure?_placements (b : Blueprint) : b.placements.filterMap (fun x => x.2.procedure?) =
    b.main.children ++ b.procedures.values.flatMap (·.children) := by
  have hprocedure : ∀ (r : Procedure) id, (r.placements id).filterMap (fun x => x.2.procedure?) = r.children := by
    intro r id
    simp [Procedure.placements, List.filterMap_map, Home.procedure?]
  have hfragment : ∀ (f : Fragment) id, (f.placements id).filterMap (fun x => x.2.procedure?) = [] := by
    intro f id
    simp [Fragment.placements, List.filterMap_map, Home.procedure?]
  simp only [placements, Table.contents, Table.values, List.filterMap_append, List.filterMap_flatMap, hprocedure,
    hfragment, List.flatMap_map]
  simp

/-- All procedures together list each procedure once, and list nothing else. The main procedure is listed only if
the root is a function. -/
theorem perm_children (hids : t.ids.Nodup) (hb : Blueprint.ofTerm t types = .ok b) :
    (b.main.children ++ b.procedures.values.flatMap (·.children)).Perm
      ((if t.tag = .lambda then [t.id] else []) ++ b.procedures.keys) := by
  have hkeys : (t.placements t.id []).filterMap (fun x => x.2.procedure?) =
      ((t.openings t.id []).filterMap Finding.procedure?).map (·.1) := by
    rw [Term.procedures_openings, List.filterMap_map]
    rfl
  rw [← b.filterMap_procedure?_placements]
  refine ((perm_placements hids hb).filterMap _).trans ?_
  rw [hkeys, List.perm_ext_iff_of_nodup (Term.nodup_openings hids).2 (nodup_started hids hb)]
  intro id
  exact mem_started hids hb

/-- A function as the root is a child of its own. -/
theorem root_child (hids : t.ids.Nodup) (hb : Blueprint.ofTerm t types = .ok b) (htag : t.tag = .lambda) :
    t.id ∈ b.main.children := by
  have hplaced : (.procedure t.id, .procedure t.id) ∈ t.placements t.id [] := by
    refine Term.mem_placements.2 ⟨[], t, ?_, ?_⟩
    · rw [Term.lineages_eq]
      exact List.mem_cons_self
    · cases t with
      | lambda site params body => exact List.mem_singleton.2 rfl
      | _ => contradiction
  rcases (mem_placements_iff_child hids hb).1 ((perm_placements hids hb).mem_iff.2 hplaced) with ⟨r, hr, hmem⟩
  rw [procedure?, if_pos (main_id hids hb).symm] at hr
  rw [Option.some.inj hr]
  exact hmem

end Blueprint

/-- **Procedures are the main one and the functions outside quotes.** Let a program with different node identities
be split into units. Then the main procedure has the identity of the root. If the root is not a function, the main
procedure is the whole program, without parameters and with nothing around it; if it is one, the main procedure is
the body of this function, with the parameters of it, and is its own parent and child. The other procedures are
the functions below the root which have no open quote around them, under their identities and with their bodies
and parameters. Each of them names a procedure around it, which lists it once, and going up from it ends at the
main procedure. All procedures together list each of them once, and nothing else but the root if that is a
function. -/
theorem procedures_form_tree (t : Term) (types : TypeTable) (b : Blueprint) (hids : t.ids.Nodup)
    (hb : Blueprint.ofTerm t types = .ok b) :
    b.main.id = t.id ∧
    (t.tag ≠ .lambda → b.main.body = t ∧ b.main.params = [] ∧ b.main.parent = none) ∧
    (∀ site params body, t = .lambda site params body → b.main.body = body ∧
      b.main.params = params.map (·.id) ∧ b.main.parent = some t.id ∧ t.id ∈ b.main.children) ∧
    (∀ id body params,
      (∃ r, b.procedures.get? id = some r ∧ r.body = body ∧ r.params = params) ↔
        ∃ path site ps, (path, .lambda site ps body) ∈ t.lineages [] ∧ path ≠ [] ∧ openQuotes path = [] ∧
          site.id = id ∧ ps.map (·.id) = params) ∧
    (∀ id r, b.procedures.get? id = some r → r.id = id ∧
      (∃ outer p, r.parent = some outer ∧ b.procedure? outer = some p ∧ p.children.count id = 1) ∧
      ∃ n, climb b.procedureAbove? n id = some b.main.id) ∧
    (b.main.children ++ b.procedures.values.flatMap (·.children)).Perm
      ((if t.tag = .lambda then [t.id] else []) ++ b.procedures.keys) := by
  have hmain := Blueprint.main_header hids hb
  refine ⟨Blueprint.main_id hids hb, fun htag => ?_, fun site params body ht => ?_, fun id body params => ?_,
    fun id r hr => ⟨?_, Blueprint.child_once hids hb hr, Blueprint.climb_to_main hids hb hr⟩,
    Blueprint.perm_children hids hb⟩
  · -- a root that is no function is the body of the main procedure
    have hheader : b.main.header = { id := t.id, body := t, params := [], parent := none } := by
      rw [hmain]
      cases t with
      | lambda => exact absurd rfl htag
      | _ => rfl
    exact ⟨congrArg Procedure.body hheader, congrArg Procedure.params hheader, congrArg Procedure.parent hheader⟩
  · -- a function at the root opens a procedure under the identity of the main one, and takes its place
    have hchild := Blueprint.root_child hids hb (ht ▸ rfl)
    rw [ht] at hmain hchild ⊢
    exact ⟨congrArg Procedure.body hmain, congrArg Procedure.params hmain, congrArg Procedure.parent hmain, hchild⟩
  · constructor
    · rintro ⟨r, hr, rfl, rfl⟩
      rcases (Blueprint.procedure_iff hids hb).1 ⟨r, hr, rfl⟩ with
        ⟨path, site, ps, body, hnode, hpath, hquotes, hid, hhead⟩
      have hbody : r.body = body := congrArg Procedure.body hhead
      rw [hbody]
      exact ⟨path, site, ps, hnode, hpath, hquotes, hid, (congrArg Procedure.params hhead).symm⟩
    · rintro ⟨path, site, ps, hnode, hpath, hquotes, hid, rfl⟩
      rcases (Blueprint.procedure_iff hids hb).2 ⟨path, site, ps, body, hnode, hpath, hquotes, hid, rfl⟩ with
        ⟨r, hr, hhead⟩
      exact ⟨r, hr, congrArg Procedure.body hhead, congrArg Procedure.params hhead⟩
  · -- a key is the identity of its record
    rcases (Blueprint.procedure_iff hids hb).1 ⟨r, hr, rfl⟩ with ⟨path, site, ps, body, -, -, -, -, hhead⟩
    exact congrArg Procedure.id hhead

/-- `let f = fun n -> fun m -> m; < (fun a -> a); [ fun k -> k ] >`: a function inside a function, one inside
a quote, and one that an escape brings back out of it. -/
def nestedFunctions : Term :=
  .seq ⟨0, {}⟩
    (.define ⟨1, {}⟩ "f" (.lambda ⟨2, {}⟩ [⟨3, "n", none⟩]
      (.lambda ⟨4, {}⟩ [⟨5, "m", none⟩] (.lookup ⟨6, {}⟩ "m"))))
    (.quote ⟨7, {}⟩ none false (.seq ⟨8, {}⟩
      (.lambda ⟨9, {}⟩ [⟨10, "a", none⟩] (.lookup ⟨11, {}⟩ "a"))
      (.escape ⟨12, {}⟩ .splice (.lambda ⟨13, {}⟩ [⟨14, "k", none⟩] (.lookup ⟨15, {}⟩ "k")))))

/-- The inner function is two steps below the main procedure, of which the escaped one is a child. -/
theorem procedures_form_tree_nested : ∃ b r,
    nestedFunctions.ids.Nodup ∧ Blueprint.ofTerm nestedFunctions .empty = .ok b ∧
      b.procedures.keys = [2, 4, 13] ∧ b.main.children = [2, 13] ∧ b.procedures.get? 4 = some r ∧
      r.parent = some 2 ∧ ∃ n, climb b.procedureAbove? n 4 = some b.main.id := by
  obtain ⟨b, r, hb, hkeys, hchildren, hr, hparent⟩ : ∃ b r,
      Blueprint.ofTerm nestedFunctions .empty = .ok b ∧ b.procedures.keys = [2, 4, 13] ∧
        b.main.children = [2, 13] ∧ b.procedures.get? 4 = some r ∧ r.parent = some 2 :=
    ⟨_, _, rfl, rfl, rfl, rfl, rfl⟩
  have hids : nestedFunctions.ids.Nodup := by decide
  obtain ⟨-, -, -, -, htree, -⟩ := procedures_form_tree nestedFunctions .empty b hids hb
  exact ⟨b, r, hids, hb, hkeys, hchildren, hr, hparent, (htree 4 r hr).2.2⟩

/-- `fun n -> n` -/
def rootFunction : Term := .lambda ⟨0, {}⟩ [⟨1, "n", none⟩] (.lookup ⟨2, {}⟩ "n")

/-- The main procedure of a function is not the whole program, and the function is not among the others. -/
theorem root_function_replaces_main : ∃ b,
    rootFunction.ids.Nodup ∧ Blueprint.ofTerm rootFunction .empty = .ok b ∧ b.main.body = .lookup ⟨2, {}⟩ "n" ∧
      b.main.params = [1] ∧ b.main.parent = some 0 ∧ b.procedures.get? 0 = none := by
  refine ⟨_, ?_, rfl, rfl, rfl, rfl, rfl⟩
  decide

end Multistage
