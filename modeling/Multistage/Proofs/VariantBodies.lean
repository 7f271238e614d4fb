import Multistage.Proofs.NameResolution
import Multistage.Proofs.OwnHoles
import Multistage.Proofs.Substitution
import Multistage.Proofs.VariantRounds

/-!
# The holes that a variant leaves

The code of a variant is that of a fragment with snippets in the place of its holes. A snippet stands at
the level of the hole that it fills (`level_of_assigns`), because both belong to the same variable. So the
code of a partial variant always stands at the level of its fragment (`Fragment.Stands.fill`), and the holes
that it owns are those which are left to fill: in the end it owns none. Holes of other fragments in the code
are not touched, so that only code which owns all its holes ends without any (`Fragment.OwnsAllHoles.fill`).

Main statements: `variant_owns_no_hole` and `variant_keeps_nested_hole`.
-/

namespace Multistage

open Term

/-! ## Linking and collecting -/

namespace Survey

variable {s linked : Survey} {id : NodeId} {f' : Fragment}

/-- The snippet is a value of the variable that the hole names. -/
def Assigns (s : Survey) (snippet hole : NodeId) : Prop :=
  ∃ record ∈ s.fragments.values.flatMap (·.ownSnippet), record.id = hole ∧
    ∃ definition, holeDefinition s.uses record = .ok definition ∧ (definition, snippet) ∈ s.snippets

/-- The fragment is that of the survey, but for the hole that it may fill. -/
def Linked (s : Survey) (id : NodeId) (f' : Fragment) : Prop :=
  ∃ f, s.fragments.get? id = some f ∧ f' = { f with fills := f'.fills } ∧
    ∀ hole, f'.fills = some hole → f.fills = some hole ∨ s.Assigns id hole

/-- Fragments stay linked as the survey assigns. -/
theorem Linked.modify {fragments : Table Fragment} (hall : ∀ id f, fragments.get? id = some f → s.Linked id f)
    {snippet hole : NodeId} (hassigns : s.Assigns snippet hole)
    (h : (fragments.modify snippet fun f => { f with fills := some hole }).get? id = some f') :
    s.Linked id f' := by
  rw [Table.get?_modify] at h
  split at h
  · next hid =>
    rcases Option.map_eq_some_iff.1 h with ⟨f₁, hf₁, rfl⟩
    rcases hall id f₁ hf₁ with ⟨f, hf, heq, -⟩
    refine ⟨f, hf, ?_, fun hole' hhole' => .inr ?_⟩
    · rw [heq]
    · cases hhole'
      rw [hid]
      exact hassigns
  · exact hall id f' h

/-- Linking changes nothing but what fragments fill, and that for a reason. -/
theorem linked_of_link (h : s.link = .ok linked) (hget : linked.fragments.get? id = some f') :
    s.Linked id f' := by
  rw [link] at h
  rcases Except.bind_eq_ok.1 h with ⟨fragments, hfold, hpure⟩
  cases hpure
  have hall : ∀ id f, fragments.get? id = some f → s.Linked id f := by
    refine foldlM_induction (P := fun fragments => ∀ id f, fragments.get? id = some f → s.Linked id f)
      ?_ hfold fun id f hf => ⟨f, hf, rfl, fun hole hhole => .inl hhole⟩
    intro record hrecord first last hfirst hlink
    rcases Except.bind_eq_ok.1 hlink with ⟨definition, hdefinition, hassign⟩
    refine foldlM_induction (P := fun fragments => ∀ id f, fragments.get? id = some f → s.Linked id f)
      ?_ hassign hfirst
    intro snippet hsnippet before after hbefore hstep
    have hassigns : s.Assigns snippet record.id := by
      rcases List.mem_map.1 hsnippet with ⟨⟨definition', snippet'⟩, hmem, rfl⟩
      rcases List.mem_filter.1 hmem with ⟨hmem, hsame⟩
      have hsame : definition' = definition := of_decide_eq_true hsame
      exact ⟨record, hrecord, rfl, definition, hdefinition, hsame ▸ hmem⟩
    rcases assignHole_eq_ok hstep with rfl | rfl
    · exact hbefore
    · intro id f hf
      exact Linked.modify hbefore hassigns hf
  exact hall id f' hget

/-- Collecting escapes changes nothing but the lists of all escapes. -/
theorem fragment_of_collect (h : s.collect.fragments.get? id = some f') :
    ∃ f, s.fragments.get? id = some f ∧ f' = { f with persist := f'.persist, splice := f'.splice } := by
  rw [collect] at h
  dsimp only at h
  generalize s.order = order at h
  generalize s.fragments = fragments at h ⊢
  induction order generalizing fragments with
  | nil => exact ⟨f', h, rfl⟩
  | cons key rest ih =>
    rcases ih _ h with ⟨f₁, hf₁, heq⟩
    rw [Table.get?_modify] at hf₁
    split at hf₁
    · rcases Option.map_eq_some_iff.1 hf₁ with ⟨f, hf, rfl⟩
      exact ⟨f, hf, heq⟩
    · exact ⟨f₁, hf₁, heq⟩

end Survey

/-- The fragments of a program are its quotes, each with the holes that its code owns, and they fill only
holes of variables which they are values of. -/
theorem Blueprint.fragment_of_ofTerm {t : Term} {types : TypeTable} {b : Blueprint} (hids : t.allIds.Nodup)
    (hb : Blueprint.ofTerm t types = .ok b) {id : NodeId} {f : Fragment} (h : b.fragments.get? id = some f) :
    ∃ site label snippet, .quote site label snippet f.body ∈ t.nodes ∧ site.id = id ∧ f.id = id ∧
      f.ownSnippet = (f.body.ownHoles 0).map (holeRecord id) ∧
      ∀ hole, f.fills = some hole → t.survey.Assigns id hole := by
  rcases ofTerm_eq_ok hb with ⟨linked, hlink, -, hfragments, -⟩
  rw [hfragments] at h
  rcases Survey.fragment_of_collect h with ⟨f₁, hf₁, hcollected⟩
  rcases Survey.linked_of_link hlink hf₁ with ⟨f₀, hf₀, hlinked, hfills⟩
  rcases fragment_of_get?_survey hids hf₀ with ⟨site, label, snippet, hnode, hid, hid₀, hnone, hholes⟩
  have hbody : f.body = f₀.body := by rw [hcollected, hlinked]
  refine ⟨site, label, snippet, ?_, hid, ?_, ?_, fun hole hhole => ?_⟩
  · rw [hbody]
    exact hnode
  · rw [hcollected, hlinked]
    exact hid₀
  · rw [hbody, ← hholes, hcollected, hlinked]
  · rw [hcollected] at hhole
    rcases hfills hole hhole with hold | hassigns
    · rw [hnone] at hold
      cases hold
    · exact hassigns

/-! ## Levels of holes and snippets -/

/-- A node with the identity stands at the level. -/
def Term.StandsAt (t : Term) (level : Int) (id : NodeId) : Prop :=
  ∃ node, (level, node) ∈ t.nodesAt 0 ∧ node.id = id

section Levels

variable {p : Prelude} {t : Term} {j : Judgement} {log : Log} {id hole : NodeId}

theorem Term.StandsAt.unique {level level' : Int} (hids : t.ids.Nodup) (h : t.StandsAt level id)
    (h' : t.StandsAt level' id) : level = level' := by
  rcases h with ⟨node, hnode, hid⟩
  rcases h' with ⟨node', hnode', hid'⟩
  exact level_unique hids hnode hnode' (hid.trans hid'.symm)

theorem Term.Defines.mem_ids {types : TypeTable} {node : Term} {name : String} {d : NodeId} {τ : Ty}
    (h : node.Defines types name d τ) : d ∈ node.id :: node.params.map (·.id) := by
  cases h with
  | define | host => exact List.mem_cons_self
  | param hparam => exact List.mem_cons_of_mem _ (List.mem_map_of_mem hparam)

theorem not_mem_leaked (h : ∀ node ∈ t.nodes, node.leaked = []) (name : String) :
    ∀ node ∈ t.nodes, name ∉ node.leaked := by
  intro node hnode
  rw [h node hnode]
  exact List.not_mem_nil

/-- A snippet is a quote that is marked as one. -/
theorem quote_of_snippet? {value : Term} (h : value.snippet? = some id) :
    ∃ site label body, value = .quote site label true body ∧ site.id = id := by
  unfold snippet? at h
  split at h
  · cases h
    exact ⟨_, _, _, rfl, rfl⟩
  · cases h

/-- A name can be assigned only at the level of its binding. -/
theorem level_of_assignRule {c : Context} {node : NodeId} {name : String} {value : Ty} {binding : Binding}
    (hrule : p.assignRule c node name value = .ok ()) (hbound : c.scope.lookup? name = some binding) :
    binding.level = c.level := by
  rcases Except.bind_eq_ok.1 hrule with ⟨target, htarget, -⟩
  rw [Prelude.targetRule, hbound] at htarget
  by_contra hne
  simp [hne] at htarget

variable (hj : Judged p {} t j log) (hids : t.allIds.Nodup) (hown : OwnLevels (Table.ofList log) 0 t)
  (hkept : ∀ node ∈ t.nodes, node.leaked = [])

include hj hids hkept

/-- An assignment stands at the level of the definition that it assigns to. -/
theorem assign_alike {level : Int} {s : Site} {name : String} {value : Term} {home : Home} {d : NodeId}
    (hs : (level, .assign s name value) ∈ t.nodesAt 0)
    (huse : .use home s.id (some d) ∈ t.findings ⟨t.id, []⟩ {}) :
    ∃ node τ, (level, node) ∈ t.nodesAt 0 ∧ node.Defines (Table.ofList log) name d τ := by
  have hstart := InStep.start hj (t.ids_sublist_allIds.nodup hids) (not_mem_leaked hkept name)
  rcases hstart.node hs with ⟨c, position, scope, k, below, hstep, hlevel, hfindings⟩
  -- both findings are of the same use
  have hsame : scope.lookup? name = some d := by
    have hmem : .use position.home s.id (scope.lookup? name) ∈ t.findings ⟨t.id, []⟩ {} :=
      hfindings (List.mem_append_right _ List.mem_cons_self)
    rw [← get?_uses_survey hids hmem, get?_uses_survey hids huse]
  have halike := hstep.alike
  rw [hsame] at halike
  cases hstep.judged with
  | assign hv hrule =>
    generalize hbound : c.scope.lookup? name = bound at halike
    cases halike with
    | @bound binding _ node hnode hdefines =>
      have hlevels : binding.level = c.level := level_of_assignRule hrule hbound
      have hsame : (binding.level : Int) = level := by
        rw [hlevels]
        exact hlevel
      rw [hsame] at hnode
      exact ⟨_, _, hnode, hdefines⟩

/-- A snippet stands at the level of the definition that it is a value of. -/
theorem level_of_snippet {d : NodeId} (h : (d, id) ∈ t.survey.snippets) :
    ∃ level node, (level, node) ∈ t.nodesAt 0 ∧ d ∈ node.id :: node.params.map (·.id) ∧
      t.StandsAt level id := by
  -- the value of a definition or of an assignment stands at its level
  have hvalue : ∀ {level : Int} {node value : Term}, (level, node) ∈ t.nodesAt 0 → value ∈ node.children →
      node.levelBelow level = level → value.snippet? = some id → t.StandsAt level id := by
    intro level node value hnode hchild hlevel hsnippet
    rcases quote_of_snippet? hsnippet with ⟨site, label, body, rfl, hid⟩
    have hbelow := nodesAt_below hnode hchild
    rw [hlevel] at hbelow
    refine ⟨.quote site label true body, hbelow ?_, hid⟩
    rw [nodesAt_eq]
    exact List.mem_cons_self
  rcases Survey.mem_snippets_noteAll h with h | h
  · cases h
  · rcases givenIn_of_finding h with
      ⟨s, name, value, hnode, rfl, hsnippet⟩ | ⟨s, name, value, home, hnode, hsnippet, huse⟩
    · rcases exists_nodesAt hnode 0 with ⟨level, hlevel⟩
      refine ⟨level, _, hlevel, List.mem_cons_self, ?_⟩
      exact hvalue hlevel (List.mem_singleton.2 rfl) rfl hsnippet
    · rcases exists_nodesAt hnode 0 with ⟨level, hlevel⟩
      rcases assign_alike hj hids hkept hlevel huse with ⟨node, τ, hnode, hdefines⟩
      refine ⟨level, node, hnode, hdefines.mem_ids, ?_⟩
      exact hvalue hlevel (List.mem_singleton.2 rfl) rfl hsnippet

omit hj hkept in
/-- A hole that the survey lists is a hole of the program. -/
theorem hole_of_record {record : EscapeRecord}
    (h : record ∈ t.survey.fragments.values.flatMap (·.ownSnippet)) :
    ∃ level site, (level, .escape site .snippet record.body) ∈ t.nodesAt 0 ∧ site.id = record.id := by
  rcases List.mem_flatMap.1 h with ⟨f, hf, hrecord⟩
  rcases List.mem_map.1 hf with ⟨⟨key, f⟩, hentry, rfl⟩
  rcases fragment_of_get?_survey hids (Table.get?_eq_some_iff.2 hentry) with
    ⟨site, label, snippet, hquote, -, -, -, hholes⟩
  dsimp only at hrecord
  rw [hholes] at hrecord
  rcases List.mem_map.1 hrecord with ⟨own, hown, rfl⟩
  rcases exists_nodesAt hquote 0 with ⟨level, hlevel⟩
  rcases mem_nodesAt_of_ownHoles hown (level + 1) with ⟨site', hid, hnode⟩
  rw [Int.natCast_zero, Int.add_zero] at hnode
  exact ⟨level + 1, site', nodesAt_below hlevel (List.mem_singleton.2 rfl) hnode, hid⟩

include hown

/-- A hole stands one level above the definition of the variable that it names. -/
theorem level_of_holeDefinition {record : EscapeRecord} {d : NodeId} {level : Int} {site : Site}
    (h : Survey.holeDefinition t.survey.uses record = .ok d)
    (hhole : (level, .escape site .snippet record.body) ∈ t.nodesAt 0) :
    ∃ node, (level - 1, node) ∈ t.nodesAt 0 ∧ d ∈ node.id :: node.params.map (·.id) := by
  have hbody := nodesAt_below hhole (List.mem_singleton.2 rfl)
  unfold Survey.holeDefinition at h
  split at h
  · next s name hlookup =>
    have hs : (level - 1, .lookup s name) ∈ t.nodesAt 0 := by
      rw [hlookup] at hbody
      exact hbody List.mem_cons_self
    rcases lookup_alike hj hids hown (not_mem_leaked hkept name) hs with
      ⟨k, -, ⟨-, hnone, -⟩ | ⟨binding, d', node, -, huse, hnode, hdefines⟩⟩
    · rw [hnone] at h
      cases h
    · rw [huse] at h
      cases h
      exact ⟨node, hnode, hdefines.mem_ids⟩
  · cases h

/-- The code of a snippet stands at the level of the hole that it fills. -/
theorem level_of_assigns (h : t.survey.Assigns id hole) {level : Int} (hid : t.StandsAt level id) :
    t.StandsAt (level + 1) hole := by
  rcases h with ⟨record, hrecord, rfl, d, hdefinition, hsnippet⟩
  rcases hole_of_record hids hrecord with ⟨level', site, hhole, hsite⟩
  rcases level_of_holeDefinition hj hids hown hkept hdefinition hhole with ⟨node, hnode, hd⟩
  rcases level_of_snippet hj hids hkept hsnippet with ⟨level'', node', hnode', hd', hid'⟩
  -- the hole and the snippet have the same definition
  have hsame : node = node' :=
    eq_of_shared_id hids (mem_nodes_of_nodesAt hnode) (mem_nodes_of_nodesAt hnode') hd hd'
  have hids' := t.ids_sublist_allIds.nodup hids
  have hlevels : level' - 1 = level'' := level_unique hids' hnode hnode' (congrArg Term.id hsame)
  have hlevel : level = level'' := hid.unique hids' hid'
  have hnext : level + 1 = level' := by omega
  rw [hnext]
  exact ⟨_, hhole, hsite⟩

end Levels

/-! ## Code that is put together -/

namespace Term

theorem fst_holeAt_withChildren (t : Term) (ts : List Term) (depth : Nat) :
    ((t.withChildren ts).holeAt depth).map (·.1) = (t.holeAt depth).map (·.1) := by
  unfold withChildren
  split
  case h_7 kind _ _ => cases kind <;> cases depth <;> rfl
  all_goals rfl

theorem depthBelow_withChildren (t : Term) (ts : List Term) (depth : Nat) :
    (t.withChildren ts).depthBelow depth = t.depthBelow depth := by
  unfold withChildren
  split
  case h_7 => cases depth <;> rfl
  all_goals rfl

/-- Every node of the code, which starts at `level`, stands in the program at its level. -/
def Placed (t : Term) (level : Int) (code : Term) : Prop :=
  ∀ entry ∈ code.nodesAt level, t.StandsAt entry.1 entry.2.id

/-- Code is placed at a level if its root stands there, and its parts below. -/
theorem placed_iff {t code : Term} {level : Int} :
    t.Placed level code ↔ t.StandsAt level code.id ∧
      ∀ child ∈ code.children, t.Placed (code.levelBelow level) child := by
  unfold Placed
  rw [nodesAt_eq, List.forall_mem_cons]
  simp only [List.mem_flatMap, forall_exists_index, and_imp]
  exact and_congr_right fun _ => ⟨fun h child hchild entry => h entry child hchild,
    fun h entry child hchild => h child hchild entry⟩

variable {t code : Term} {level : Int} {g : NodeId → Option Term}

/-- Replacing nodes by code of their level keeps all levels. -/
theorem Placed.substitute (h : t.Placed level code)
    (hg : ∀ id new, g id = some new → ∀ level', t.StandsAt level' id → t.Placed level' new) :
    t.Placed level (code.substitute g) := by
  induction code using induct_children generalizing level with
  | step code ih =>
    rcases placed_iff.1 h with ⟨hself, hchildren⟩
    rw [substitute_eq]
    cases hnew : g code.id with
    | some new => exact hg code.id new hnew level hself
    | none =>
      rw [Option.getD_none, placed_iff, id_withChildren, levelBelow_withChildren,
        children_withChildren (List.length_map _)]
      refine ⟨hself, List.forall_mem_map.2 fun child hchild => ?_⟩
      exact ih child hchild (hchildren child hchild)

/-- The holes that code owns after all its holes have been filled, with code of its own level, come from
what they have been filled with. -/
theorem ownHoles_substitute {depth : Nat} (h : t.Placed (level + depth) code)
    (hg : ∀ id new, g id = some new → ∀ level', t.StandsAt level' id → level' = level)
    (hfilled : ∀ hole ∈ code.ownHoles depth, g hole.1 ≠ none) :
    ∀ hole ∈ (code.substitute g).ownHoles depth, ∃ id new, g id = some new ∧ hole ∈ new.ownHoles 0 := by
  induction code using induct_children generalizing depth with
  | step code ih =>
    rcases placed_iff.1 h with ⟨hself, hchildren⟩
    rw [substitute_eq]
    intro hole hhole
    cases hnew : g code.id with
    | some new =>
      -- a filled node stands at the level of the filling, so under no further quotes
      have hzero : depth = 0 := by
        have := hg code.id new hnew _ hself
        omega
      rw [hnew, hzero] at hhole
      exact ⟨code.id, new, hnew, hhole⟩
    | none =>
      rw [hnew, Option.getD_none, ownHoles_eq, depthBelow_withChildren,
        children_withChildren (List.length_map _)] at hhole
      rw [ownHoles_eq] at hfilled
      rcases List.forall_mem_append.1 hfilled with ⟨hhere, hbelow⟩
      -- a node that stays is no hole, as all of them are filled
      have hnone : code.holeAt depth = [] := by
        rw [List.eq_nil_iff_forall_not_mem]
        intro own hmem
        rcases holeAt_eq_singleton hmem with ⟨-, site, hid, hcode⟩
        refine hhere own hmem ?_
        rw [← hid, ← hnew, hcode]
        rfl
      have hnone' := code.fst_holeAt_withChildren (code.children.map fun child => child.substitute g) depth
      rw [hnone, List.map_nil, List.map_eq_nil_iff] at hnone'
      rw [hnone', List.nil_append] at hhole
      split at hhole
      · cases hhole
      · next inner hinner =>
        -- what is left is in a part, under the quotes that the node adds or leaves
        rw [hinner] at hbelow
        rcases List.mem_flatMap.1 hhole with ⟨child', hchild', hhole⟩
        rcases List.mem_map.1 hchild' with ⟨child, hchild, rfl⟩
        have hplaced := hchildren child hchild
        rw [levelBelow_of_depthBelow hinner] at hplaced
        refine ih child hchild hplaced (fun own hmem => hbelow own ?_) hole hhole
        exact List.mem_flatMap.2 ⟨child, hchild, hmem⟩

/-- All holes in a term, those of nested quotes included. -/
def holeIds (t : Term) : List NodeId := t.nodes.flatMap fun node => (node.holeAt 0).map (·.1)

theorem holeIds_eq (t : Term) : t.holeIds = (t.holeAt 0).map (·.1) ++ t.children.flatMap holeIds := by
  rw [holeIds, nodes_eq, List.flatMap_cons, List.flatMap_assoc]
  rfl

/-- A hole in code where nodes have been replaced is one of the code, and not replaced, or it has come
with what has been put in. -/
theorem mem_holeIds_substitute {hole : NodeId} (h : hole ∈ (code.substitute g).holeIds) :
    (hole ∈ code.holeIds ∧ g hole = none) ∨ ∃ id new, g id = some new ∧ hole ∈ new.holeIds := by
  induction code using induct_children with
  | step code ih =>
    rw [substitute_eq] at h
    cases hnew : g code.id with
    | some new =>
      rw [hnew] at h
      exact .inr ⟨code.id, new, hnew, h⟩
    | none =>
      rw [hnew, Option.getD_none, holeIds_eq, fst_holeAt_withChildren,
        children_withChildren (List.length_map _)] at h
      rw [holeIds_eq]
      rcases List.mem_append.1 h with h | h
      · refine .inl ⟨List.mem_append_left _ h, ?_⟩
        rcases List.mem_map.1 h with ⟨own, hown, rfl⟩
        rcases holeAt_eq_singleton hown with ⟨-, site, hid, hcode⟩
        rw [← hid, ← hnew, hcode]
        rfl
      · rcases List.mem_flatMap.1 h with ⟨child', hchild', h⟩
        rcases List.mem_map.1 hchild' with ⟨child, hchild, rfl⟩
        rcases ih child hchild h with ⟨hmem, hnone⟩ | hput
        · exact .inl ⟨List.mem_append_right _ (List.mem_flatMap.2 ⟨child, hchild, hmem⟩), hnone⟩
        · exact .inr hput

end Term

/-! ## Variants -/

/-- The code of the fragment starts at `level`, its nodes stand at their levels in the program, and the
holes that it owns are listed with the fragment. -/
structure Fragment.Stands (t : Term) (level : Int) (f : Fragment) : Prop where
  placed : t.Placed level f.body
  listed : ∀ hole ∈ f.body.ownHoles 0, hole.1 ∈ f.holes
  holes : ∀ hole ∈ f.holes, t.StandsAt level hole

/-- Every fragment of the table stands somewhere in the program, and any hole that it fills stands at the
level of its code. -/
def Levelled (t : Term) (fragments : Table Fragment) : Prop :=
  ∀ id f, fragments.get? id = some f →
    ∃ level, f.Stands t level ∧ ∀ hole, f.fills = some hole → t.StandsAt level hole

/-- Every hole in the code of the fragment, however deep, is listed with the fragment. -/
def Fragment.OwnsAllHoles (f : Fragment) : Prop := ∀ hole ∈ f.body.holeIds, hole ∈ f.holes

instance (f : Fragment) : Decidable f.OwnsAllHoles :=
  decidable_of_iff (f.body.holeIds.all f.holes.contains = true) (by simp [Fragment.OwnsAllHoles])

variable {t : Term} {level : Int} {fragments : Table Fragment} {f g : Fragment} {choice : List NodeId}

/-- Filling a fragment replaces exactly its holes, each by the code of a snippet for it. -/
theorem Fragment.body_of_fill (h : f.fill fragments choice = .ok g)
    (hchoice : List.Forall₂ (Fills fragments) choice f.holes) :
    ∃ bodies : Table Term, g.body = f.body.substitute bodies.get? ∧
      (∀ hole ∈ f.holes, bodies.get? hole ≠ none) ∧
      ∀ hole body, bodies.get? hole = some body → hole ∈ f.holes ∧ ∃ id ∈ choice, ∃ snippet,
        fragments.get? id = some snippet ∧ snippet.fills = some hole ∧ snippet.body = body := by
  rcases Except.bind_eq_ok.1 h with ⟨snippets, hchosen, hg⟩
  cases hg
  refine ⟨_, rfl, fun hole hhole => ?_, fun hole body hbody => ?_⟩
  · -- the choice has a snippet for each hole
    have hlength : f.ownSnippet.length ≤ choice.length := by
      have := hchoice.length_eq
      rw [holes, List.length_map] at this
      omega
    rcases List.mem_map.1 hhole with ⟨record, hrecord, rfl⟩
    rw [← List.map_fst_zip hlength] at hrecord
    rcases List.mem_map.1 hrecord with ⟨⟨record, id⟩, hpair, rfl⟩
    rcases exists_of_forall₂ (mapM_eq_ok.1 hchosen) hpair with ⟨entry, hentry, hsnippet⟩
    dsimp only at hsnippet
    split at hsnippet
    · cases hsnippet
      rcases Table.get?_ofList_of_mem (List.mem_map_of_mem
        (f := fun (entry : NodeId × Fragment) => (entry.1, entry.2.body)) hentry) with ⟨body, hbody⟩
      exact Option.ne_none_iff_exists'.2 ⟨body, hbody⟩
    · cases hsnippet
  · -- an entry of the table is a pair of a hole and the snippet that is chosen for it
    rcases List.mem_map.1 (Table.mem_of_get?_ofList hbody) with ⟨entry, hentry, heq⟩
    rcases exists_of_forall₂ (mapM_eq_ok.1 hchosen).flip hentry with ⟨⟨record, id⟩, hpair, hsnippet⟩
    rcases List.of_mem_zip hpair with ⟨hrecord, hid⟩
    have hfits : Fills fragments id record.id := by
      have hflip := hchoice.flip
      rw [holes, List.forall₂_map_left_iff, List.forall₂_iff_zip] at hflip
      exact hflip.2 hpair
    dsimp only at hsnippet
    split at hsnippet
    · next snippet hget =>
      cases hsnippet
      cases heq
      rcases hfits with ⟨snippet', hget', hfills⟩
      cases hget.symm.trans hget'
      exact ⟨List.mem_map_of_mem hrecord, id, hid, snippet, hget, hfills, rfl⟩
    · cases hsnippet

theorem fills_of_choice {holes : List NodeId} (h : List.Forall₂ (Fills fragments) choice holes) {id : NodeId}
    (hid : id ∈ choice) (hget : fragments.get? id = some f) : ∃ hole ∈ holes, f.fills = some hole := by
  rcases exists_of_forall₂ h hid with ⟨hole, hhole, snippet, hget', hfills⟩
  rw [hget] at hget'
  cases hget'
  exact ⟨hole, hhole, hfills⟩

theorem Fragment.holes_of_fill (h : f.fill fragments choice = .ok g)
    (hchoice : List.Forall₂ (Fills fragments) choice f.holes) :
    g.holes = choice.flatMap (opened fragments) := by
  refine holes_fill h ?_
  rw [hchoice.length_eq, Fragment.holes, List.length_map]

/-- Filling a fragment keeps it at its level. -/
theorem Fragment.Stands.fill (h : f.Stands t level) (hids : t.ids.Nodup) (hlevelled : Levelled t fragments)
    (hfill : f.fill fragments choice = .ok g) (hchoice : List.Forall₂ (Fills fragments) choice f.holes) :
    g.Stands t level := by
  -- the snippets stand at the level of the holes that they fill
  have hsnippets : ∀ id ∈ choice, ∀ snippet, fragments.get? id = some snippet → snippet.Stands t level := by
    intro id hid snippet hget
    rcases fills_of_choice hchoice hid hget with ⟨hole, hhole, hfills⟩
    rcases hlevelled id snippet hget with ⟨level', hstands, hlevel⟩
    have hsame : level' = level := (hlevel hole hfills).unique hids (h.holes hole hhole)
    exact hsame ▸ hstands
  have hholes := holes_of_fill hfill hchoice
  rcases body_of_fill hfill hchoice with ⟨bodies, hbody, hall, hbodies⟩
  have hlevel : ∀ hole new, bodies.get? hole = some new → ∀ level', t.StandsAt level' hole →
      level' = level := by
    intro hole new hnew level' hstands
    exact hstands.unique hids (h.holes hole (hbodies hole new hnew).1)
  constructor
  · rw [hbody]
    -- the new code is at its level, as the snippets are
    refine h.placed.substitute fun hole new hnew level' hstands => ?_
    rcases hbodies hole new hnew with ⟨-, id, hid, snippet, hget, -, rfl⟩
    rw [hlevel hole _ hnew level' hstands]
    exact (hsnippets id hid snippet hget).placed
  · intro hole hhole
    -- a hole of the new code comes from a snippet, which lists it
    rw [hbody] at hhole
    have hplaced : t.Placed (level + (0 : Nat)) f.body := by
      rw [Int.natCast_zero, Int.add_zero]
      exact h.placed
    rcases ownHoles_substitute hplaced hlevel (fun own hown => hall own.1 (h.listed own hown)) hole hhole with
      ⟨filled, new, hnew, hmem⟩
    rcases hbodies filled new hnew with ⟨-, id, hid, snippet, hget, -, rfl⟩
    rw [hholes]
    refine List.mem_flatMap.2 ⟨id, hid, ?_⟩
    rw [opened_of_get? hget]
    exact (hsnippets id hid snippet hget).listed hole hmem
  · intro hole hhole
    -- the holes listed are those of the snippets, at their level
    rw [hholes] at hhole
    rcases List.mem_flatMap.1 hhole with ⟨id, hid, hopened⟩
    rcases exists_of_forall₂ hchoice hid with ⟨-, -, snippet, hget, -⟩
    rw [opened_of_get? hget] at hopened
    exact (hsnippets id hid snippet hget).holes hole hopened

/-- Filling a fragment that owns all its holes with such snippets gives such a fragment. -/
theorem Fragment.OwnsAllHoles.fill (h : f.OwnsAllHoles)
    (hsnippets : ∀ id snippet, fragments.get? id = some snippet → snippet.fills ≠ none →
      snippet.OwnsAllHoles)
    (hfill : f.fill fragments choice = .ok g) (hchoice : List.Forall₂ (Fills fragments) choice f.holes) :
    g.OwnsAllHoles := by
  rcases body_of_fill hfill hchoice with ⟨bodies, hbody, hall, hbodies⟩
  intro hole hhole
  rw [hbody] at hhole
  rcases mem_holeIds_substitute hhole with ⟨hold, hnone⟩ | ⟨replaced, new, hnew, hmem⟩
  · exact absurd hnone (hall hole (h hole hold))
  · rcases hbodies replaced new hnew with ⟨-, id, hid, snippet, hget, hfills, rfl⟩
    rw [holes_of_fill hfill hchoice]
    refine List.mem_flatMap.2 ⟨id, hid, ?_⟩
    rw [opened_of_get? hget]
    refine hsnippets id snippet hget ?_ hole hmem
    rw [hfills]
    exact Option.some_ne_none _

/-- The fragments of a program stand where its quotes do. -/
theorem levelled_of_ofTerm {p : Prelude} {j : Judgement} {log : Log} {types : TypeTable} {b : Blueprint}
    (hj : Judged p {} t j log) (hids : t.allIds.Nodup) (hown : OwnLevels (Table.ofList log) 0 t)
    (hkept : ∀ node ∈ t.nodes, node.leaked = []) (hb : Blueprint.ofTerm t types = .ok b) :
    Levelled t b.fragments := by
  intro id f hf
  rcases Blueprint.fragment_of_ofTerm hids hb hf with
    ⟨site, label, snippet, hquote, hid, -, hholes, hfills⟩
  rcases exists_nodesAt hquote 0 with ⟨level, hlevel⟩
  have hbody : f.body.nodesAt (level + 1) ⊆ t.nodesAt 0 := nodesAt_below hlevel (List.mem_singleton.2 rfl)
  have hlisted : f.holes = (f.body.ownHoles 0).map (·.1) := by
    rw [Fragment.holes, hholes, List.map_map]
    rfl
  refine ⟨level + 1, ⟨fun entry hentry => ⟨_, hbody hentry, rfl⟩, ?_, ?_⟩, fun hole hhole => ?_⟩
  · intro hole hhole
    rw [hlisted]
    exact List.mem_map_of_mem hhole
  · intro hole hhole
    rw [hlisted] at hhole
    rcases List.mem_map.1 hhole with ⟨own, hmem, rfl⟩
    rcases mem_nodesAt_of_ownHoles hmem (level + 1) with ⟨site', hid', hnode⟩
    rw [Int.natCast_zero, Int.add_zero] at hnode
    exact ⟨_, hbody hnode, hid'⟩
  · exact level_of_assigns hj hids hown hkept (hfills hole hhole) ⟨_, hlevel, hid⟩

/-- Fragments are recorded under their identities. -/
theorem Blueprint.keyed_of_ofTerm {types : TypeTable} {b : Blueprint} (hids : t.allIds.Nodup)
    (hb : Blueprint.ofTerm t types = .ok b) : ∀ entry ∈ b.fragments.entries, entry.2.id = entry.1 := by
  intro entry hentry
  rcases fragment_of_ofTerm hids hb (Table.get?_eq_some_iff.2 hentry) with
    ⟨site, label, snippet, -, -, hid, -⟩
  exact hid

/-- **Which holes variants have left.** Let a program with different identities elaborate, let its explicit
form be split into units, and let there be a table of variants. If no value of a definition or an
assignment binds names, then the code of a variant owns no hole: any that is left in it is in a nested
quote, or in an escape to the code around the fragment. If the fragment and all snippets own every hole in
their code, then there is none left at all. -/
theorem variant_owns_no_hole (p : Prelude) (t : Term) (supply : Supply) (e : Elaboration) (q : Program)
    (e' : Elaboration) (b : Blueprint) (table : VariantTable) (hids : t.allIds.Nodup)
    (hsupply : ∀ id ∈ t.allIds, id < supply.next) (he : p.elaborate t = .ok e)
    (hq : Program.makeExplicit ⟨t, supply⟩ e.table = .ok q) (he' : p.elaborate q.root = .ok e')
    (hb : Blueprint.ofTerm q.root e'.table = .ok b) (htable : variantTable b.fragments = .ok table) :
    ∀ id vs, table.get? id = some (some vs) → ∀ v ∈ vs, ∀ key f, v.fragments.get? key = some f →
      ((∀ node ∈ q.root.nodes, node.leaked = []) → f.body.ownHoles 0 = []) ∧
      ((∀ key g, b.fragments.get? key = some g → key = id ∨ g.fills ≠ none → g.OwnsAllHoles) →
        f.body.holeIds = []) := by
  rcases judged_of_elaborate_explicit hids hsupply he hq he' with ⟨j, log, hj, -, hown, hids'⟩
  have hkeyed := Blueprint.keyed_of_ofTerm hids' hb
  intro id vs hvs v hv key f hf
  rcases variants?_of_variantTable hkeyed htable hvs with ⟨whole, hwhole, hvariants⟩
  constructor
  · intro hkept
    -- filling keeps code at its level, so that a hole which it owns is listed, and a variant lists none
    have hlevelled : Levelled q.root b.fragments := levelled_of_ofTerm hj hids' hown hkept hb
    rcases hlevelled id whole hwhole with ⟨level, hstands, -⟩
    have hids := q.root.ids_sublist_allIds.nodup hids'
    have hfill : KeptByFilling b.fragments (Fragment.Stands q.root level) := by
      intro f g choice hf hfill hchoice
      exact hf.fill hids hlevelled hfill hchoice
    rcases Fragment.variants?_induction hkeyed hfill hvariants hstands v hv key f hf with ⟨hstands, hnone⟩
    rw [List.eq_nil_iff_forall_not_mem]
    intro hole hhole
    have hlisted := hstands.listed hole hhole
    rw [hnone] at hlisted
    cases hlisted
  · intro howns
    -- filling keeps it that all holes in the code are listed
    have hfill : KeptByFilling b.fragments Fragment.OwnsAllHoles := by
      intro f g choice hf hfill hchoice
      exact hf.fill (fun key g hget hfills => howns key g hget (.inr hfills)) hfill hchoice
    have hown : whole.OwnsAllHoles := howns id whole hwhole (.inl rfl)
    rcases Fragment.variants?_induction hkeyed hfill hvariants hown v hv key f hf with ⟨hall, hnone⟩
    rw [List.eq_nil_iff_forall_not_mem]
    intro hole hhole
    have hlisted := hall hole hhole
    rw [hnone] at hlisted
    cases hlisted

/-- `let t = $< 2 >; < let s = $< 1 >; < $[s] >; $[t] >`: a fragment with a hole, and in it a nested
fragment with another one. -/
def nestedHoleTerm : Term :=
  .seq ⟨0, {}⟩ (.define ⟨1, {}⟩ "t" (.quote ⟨2, {}⟩ none true (.literal ⟨3, {}⟩ (.int 2))))
    (.quote ⟨4, {}⟩ none false
      (.seq ⟨5, {}⟩ (.define ⟨6, {}⟩ "s" (.quote ⟨7, {}⟩ none true (.literal ⟨8, {}⟩ (.int 1))))
        (.seq ⟨9, {}⟩
          (.quote ⟨10, {}⟩ none false (.escape ⟨11, {}⟩ .snippet (.lookup ⟨12, {}⟩ "s")))
          (.escape ⟨13, {}⟩ .snippet (.lookup ⟨14, {}⟩ "t")))))

/-- The hole that the outer fragment owns is filled in its variant, and the nested fragment has a variant
without any hole. -/
theorem variant_owns_no_hole_nested : ∃ e q e' b table v w f g,
    Prelude.general.elaborate nestedHoleTerm = .ok e ∧
      Program.makeExplicit ⟨nestedHoleTerm, ⟨15⟩⟩ e.table = .ok q ∧
      Prelude.general.elaborate q.root = .ok e' ∧ Blueprint.ofTerm q.root e'.table = .ok b ∧
      variantTable b.fragments = .ok table ∧
      table.get? 4 = some (some [v]) ∧ v.fragments.get? 4 = some f ∧ f.body.ownHoles 0 = [] ∧
      table.get? 10 = some (some [w]) ∧ w.fragments.get? 10 = some g ∧ g.body.holeIds = [] := by
  obtain ⟨e, q, e', b, table, v, w, f, g, he, hq, he', hb, hkept, howns, htable, hv, hf, hw, hg⟩ :
      ∃ e q e' b table v w f g, Prelude.general.elaborate nestedHoleTerm = .ok e ∧
        Program.makeExplicit ⟨nestedHoleTerm, ⟨15⟩⟩ e.table = .ok q ∧
        Prelude.general.elaborate q.root = .ok e' ∧ Blueprint.ofTerm q.root e'.table = .ok b ∧
        (∀ node ∈ q.root.nodes, node.leaked = []) ∧
        (∀ entry ∈ b.fragments.entries, entry.1 = 10 ∨ entry.2.fills ≠ none → entry.2.OwnsAllHoles) ∧
        variantTable b.fragments = .ok table ∧
        table.get? 4 = some (some [v]) ∧ v.fragments.get? 4 = some f ∧
        table.get? 10 = some (some [w]) ∧ w.fragments.get? 10 = some g :=
    ⟨_, _, _, _, _, _, _, _, _, rfl, rfl, rfl, rfl, by decide, by decide, rfl, rfl, rfl, rfl, rfl⟩
  have hleft := variant_owns_no_hole Prelude.general nestedHoleTerm ⟨15⟩ e q e' b table (by decide)
    (allIds_lt_of_all rfl) he hq he' hb htable
  have hnone := (hleft 4 [v] hv v (List.mem_singleton.2 rfl) 4 f hf).1 hkept
  have hnone' := (hleft 10 [w] hw w (List.mem_singleton.2 rfl) 10 g hg).2
    fun key whole hget => howns (key, whole) (Table.get?_eq_some_iff.1 hget)
  exact ⟨e, q, e', b, table, v, w, f, g, he, hq, he', hb, htable, hv, hf, hnone, hw, hg, hnone'⟩

/-- The hole of the nested fragment is left in the variant of the outer one. -/
theorem variant_keeps_nested_hole : ∃ e q e' b table v f,
    Prelude.general.elaborate nestedHoleTerm = .ok e ∧
      Program.makeExplicit ⟨nestedHoleTerm, ⟨15⟩⟩ e.table = .ok q ∧
      Prelude.general.elaborate q.root = .ok e' ∧ Blueprint.ofTerm q.root e'.table = .ok b ∧
      variantTable b.fragments = .ok table ∧ table.get? 4 = some (some [v]) ∧
      v.fragments.get? 4 = some f ∧ f.body.holeIds = [11] :=
  ⟨_, _, _, _, _, _, _, rfl, rfl, rfl, rfl, rfl, rfl, rfl, rfl⟩

end Multistage
