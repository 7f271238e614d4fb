import Multistage.Proofs.FragmentForest
import Multistage.Proofs.Relocation
import Multistage.Proofs.VariantBodies

/-!
# The escapes recorded of a fragment stand in its code

A fragment lists escapes of its own and those of the fragments inside it. All of them are nodes of its code, of
the kind of the list that they stand in and with the recorded body (`Blueprint.escape_of_record`). Its holes are
nodes of its code too, and each holds nothing but a name (`Blueprint.hole_of_fragment`), since linking a
program fails otherwise.
-/

namespace Multistage

/-! ## Nodes below open quotes -/

/-- A quote that is open at the end of a path stands on the path. -/
theorem quote_of_openQuotes {path : List Term} {id : NodeId} (h : id ∈ openQuotes path) :
    ∃ site label snippet body, .quote site label snippet body ∈ path ∧ site.id = id := by
  induction path using List.reverseRecOn with
  | nil => cases h
  | append_singleton path t ih =>
    have hrest : id ∈ openQuotes path → ∃ site label snippet body,
        .quote site label snippet body ∈ path ++ [t] ∧ site.id = id := by
      intro hid
      rcases ih hid with ⟨site, label, snippet, body, hquote, hsite⟩
      exact ⟨site, label, snippet, body, List.mem_append_left _ hquote, hsite⟩
    rw [openQuotes_concat] at h
    cases t with
    | quote site label snippet body =>
      rcases List.mem_cons.1 h with rfl | h
      · exact ⟨site, label, snippet, body, List.mem_append_right _ List.mem_cons_self, rfl⟩
      · exact hrest h
    | escape site kind body => exact hrest (List.mem_of_mem_tail h)
    | _ => exact hrest h

namespace Term

variable {t node : Term} {above path : List Term}

theorem mem_nodes_of_lineages (h : (path, node) ∈ t.lineages above) : node ∈ t.nodes := by
  rw [← t.map_snd_lineages above]
  exact List.mem_map_of_mem h

/-- A node stands below the nodes on the path to it. -/
theorem below_of_lineages (h : (path, node) ∈ t.lineages above) : ∀ ancestor ∈ path, ancestor ∈ above ∨
    ancestor ∈ t.nodes ∧ ∃ child ∈ ancestor.children, node ∈ child.nodes := by
  induction t using induct_children generalizing above with
  | step t ih =>
    intro ancestor hancestor
    rw [lineages_eq] at h
    rcases List.mem_cons.1 h with h | h
    · cases h
      exact .inl hancestor
    · rcases List.mem_flatMap.1 h with ⟨child, hchild, h⟩
      rcases ih child hchild h ancestor hancestor with habove | ⟨hnodes, hbelow⟩
      · rcases List.mem_append.1 habove with habove | hself
        · exact .inl habove
        · rw [List.mem_singleton.1 hself]
          exact .inr ⟨t.mem_nodes_self, child, hchild, mem_nodes_of_lineages h⟩
      · exact .inr ⟨nodes_child hchild hnodes, hbelow⟩

theorem body_of_escape {site : Site} {kind : EscapeKind} {body : Term} (h : .escape site kind body ∈ t.nodes) :
    body ∈ t.nodes :=
  nodes_subset h (nodes_child List.mem_cons_self body.mem_nodes_self)

end Term

/-- The term has a hole with the identity, which holds nothing but a name. -/
def Term.HasHole (t : Term) (hole : NodeId) : Prop :=
  ∃ site inner name, .escape site .snippet (.lookup inner name) ∈ t.nodes ∧ site.id = hole

theorem lookup_of_holeDefinition {uses : Table NodeId} {r : EscapeRecord} {definition : NodeId}
    (h : Survey.holeDefinition uses r = .ok definition) : ∃ site name, r.body = .lookup site name := by
  unfold Survey.holeDefinition at h
  split at h
  · next site name hbody => exact ⟨site, name, hbody⟩
  · cases h

theorem ownPersist_sublist (f : Fragment) (holder : NodeId) :
    (f.ownPersist.map (Listing.mk holder .persist)).Sublist (f.listings holder) := by
  rw [Fragment.listings, List.append_assoc]
  exact List.sublist_append_left _ _

theorem ownSplice_sublist (f : Fragment) (holder : NodeId) :
    (f.ownSplice.map (Listing.mk holder .splice)).Sublist (f.listings holder) := by
  rw [Fragment.listings]
  exact (List.sublist_append_right _ _).trans (List.sublist_append_left _ _)

theorem ownSnippet_sublist (f : Fragment) (holder : NodeId) :
    (f.ownSnippet.map (Listing.mk holder .snippet)).Sublist (f.listings holder) :=
  List.sublist_append_right _ _

namespace Blueprint

variable {t : Term} {types : TypeTable} {b : Blueprint} {id : NodeId} {f : Fragment}

section Split

variable (hids : t.ids.Nodup) (hb : Blueprint.ofTerm t types = .ok b)

include hids hb

/-- The code of a fragment is the body of its quote. -/
theorem quote_of_fragment (hf : b.fragments.get? id = some f) :
    ∃ site label snippet, .quote site label snippet f.body ∈ t.nodes ∧ site.id = id := by
  rcases (fragment_iff hids hb).1 ⟨f, hf, rfl⟩ with ⟨path, site, label, snippet, body, hnode, hid, hhead⟩
  have hbody : f.body = body := congrArg Fragment.body hhead
  refine ⟨site, label, snippet, ?_, hid⟩
  rw [hbody]
  exact Term.mem_nodes_of_lineages hnode

theorem body_subset (hf : b.fragments.get? id = some f) : f.body.nodes ⊆ t.nodes := by
  rcases quote_of_fragment hids hb hf with ⟨site, label, snippet, hquote, -⟩
  exact List.Subset.trans (Term.nodes_child List.mem_cons_self) (Term.nodes_subset hquote)

/-- Where the quote of a fragment is open, there is code of the fragment. -/
theorem mem_body_of_open (hf : b.fragments.get? id = some f) {path : List Term} {node : Term}
    (hnode : (path, node) ∈ t.lineages []) (hopen : id ∈ openQuotes path) : node ∈ f.body.nodes := by
  rcases quote_of_openQuotes hopen with ⟨site, label, snippet, body, hpath, hid⟩
  rcases quote_of_fragment hids hb hf with ⟨site', label', snippet', hquote', hid'⟩
  rcases Term.below_of_lineages hnode _ hpath with habove | ⟨hquote, child, hchild, hbelow⟩
  · cases habove
  · have hsame := Term.eq_of_id hids hquote hquote' (hid.trans hid'.symm)
    have hbody : body = f.body := (Term.quote.inj hsame).2.2.2
    rw [List.mem_singleton.1 hchild, hbody] at hbelow
    exact hbelow

/-- An escape that a fragment lists as its own stands in its code. -/
theorem escape_of_own {kind : EscapeKind} {own : Fragment → List EscapeRecord}
    (hown : ∀ f holder, ((own f).map (Listing.mk holder kind)).Sublist (f.listings holder))
    (hf : b.fragments.get? id = some f) {r : EscapeRecord} (hr : r ∈ own f) :
    ∃ site, .escape site kind r.body ∈ f.body.nodes ∧ site.id = r.id := by
  have hlisted : Listing.mk id kind r ∈ b.listings := by
    rw [listings, listingsOf_eq, Table.mem_contents]
    exact ⟨id, f, hf, (hown f id).subset (List.mem_map_of_mem hr)⟩
  have hexpected := (perm_listings hids hb).mem_iff.1 (List.mem_map_of_mem hlisted)
  rcases List.mem_filterMap.1 hexpected with ⟨⟨path, node⟩, hnode, hlisting⟩
  rcases Term.listing?_eq_some hlisting with ⟨site, rfl, hid, hopen, -⟩
  exact ⟨site, mem_body_of_open hids hb hf hnode (List.mem_of_mem_head? hopen), hid⟩

/-- The code of a fragment contains that of the fragments inside it. -/
theorem body_of_inside {inner : NodeId} {g : Fragment} (hpath : Relation.ReflTransGen b.Holds id inner)
    (hf : b.fragments.get? id = some f) (hg : b.fragments.get? inner = some g) : g.body.nodes ⊆ f.body.nodes := by
  induction hpath generalizing g with
  | refl =>
    rw [hf] at hg
    cases hg
    exact List.Subset.refl _
  | tail _ hstep ih =>
    have hholds := hstep
    rcases hstep with ⟨middle, hmiddle, -⟩
    refine List.Subset.trans ?_ (ih hmiddle)
    rcases (holds_iff hids hb).1 hholds with ⟨path, site, label, snippet, body, hnode, hid, hopen⟩
    rcases quote_of_fragment hids hb hg with ⟨site', label', snippet', hquote, hid'⟩
    have hsame := Term.eq_of_id hids hquote (Term.mem_nodes_of_lineages hnode) (hid'.trans hid.symm)
    have hbody : g.body = body := (Term.quote.inj hsame).2.2.2
    rw [hbody]
    exact List.Subset.trans (Term.nodes_child List.mem_cons_self)
      (Term.nodes_subset (mem_body_of_open hids hb hmiddle hnode (List.mem_of_mem_head? hopen)))

/-- An escape that is listed by a fragment inside another one stands in the code of both. -/
theorem escape_of_inside {kind : EscapeKind} {own : Fragment → List EscapeRecord}
    (hown : ∀ f holder, ((own f).map (Listing.mk holder kind)).Sublist (f.listings holder))
    (hf : b.fragments.get? id = some f) {r : EscapeRecord}
    (hr : ∃ key g, Relation.ReflTransGen b.Holds id key ∧ b.fragments.get? key = some g ∧ r ∈ own g) :
    ∃ site, .escape site kind r.body ∈ f.body.nodes ∧ site.id = r.id := by
  rcases hr with ⟨key, g, hpath, hg, hr⟩
  rcases escape_of_own hids hb hown hg hr with ⟨site, hnode, hid⟩
  exact ⟨site, body_of_inside hids hb hpath hf hg hnode, hid⟩

/-- Every escape that a fragment lists stands in its code. -/
theorem escape_of_record {kind : EscapeKind} {list : Fragment → List EscapeRecord}
    (hlist : (kind, list) ∈ escapeLists) (hf : b.fragments.get? id = some f) {r : EscapeRecord} (hr : r ∈ list f) :
    ∃ site, .escape site kind r.body ∈ f.body.nodes ∧ site.id = r.id := by
  -- two lists gather what the fragments inside list, the other two are the fragment's own
  rcases mem_escapeLists.1 hlist with ⟨rfl, rfl⟩ | ⟨rfl, rfl⟩ | ⟨rfl, rfl⟩ | ⟨rfl, rfl⟩
  · exact escape_of_inside hids hb ownPersist_sublist hf ((mem_sum_iff hids hb (fun _ _ => rfl) r id f hf).1 hr)
  · exact escape_of_inside hids hb ownSplice_sublist hf ((mem_sum_iff hids hb (fun _ _ => rfl) r id f hf).1 hr)
  · exact escape_of_own hids hb ownPersist_sublist hf hr
  · exact escape_of_own hids hb ownSplice_sublist hf hr

/-! ### Holes -/

omit hids in
/-- Holes that hold anything but a name are refused when a program is split. -/
theorem lookup_of_hole (hf : b.fragments.get? id = some f) {r : EscapeRecord} (hr : r ∈ f.ownSnippet) :
    ∃ site name, r.body = .lookup site name := by
  rcases ofTerm_eq_ok hb with ⟨linked, hlink, -, hfragments, -⟩
  rw [hfragments] at hf
  rcases Survey.fragment_of_collect hf with ⟨f₁, hf₁, hcollected⟩
  rcases Survey.linked_of_link hlink hf₁ with ⟨f₀, hf₀, hlinked, -⟩
  have hsame : f.ownSnippet = f₀.ownSnippet := by rw [hcollected, hlinked]
  have hlisted : r ∈ t.survey.fragments.values.flatMap (·.ownSnippet) :=
    List.mem_flatMap.2 ⟨f₀, mem_values_of_get? hf₀, hsame ▸ hr⟩
  rw [Survey.link] at hlink
  rcases Except.bind_eq_ok.1 hlink with ⟨fragments, hfold, -⟩
  rcases foldlM_eq_ok hfold r hlisted with ⟨first, last, hstep⟩
  rcases Except.bind_eq_ok.1 hstep with ⟨definition, hdefinition, -⟩
  exact lookup_of_holeDefinition hdefinition

/-- A hole of a fragment stands in its code. -/
theorem hole_of_fragment (hf : b.fragments.get? id = some f) {hole : NodeId} (hhole : hole ∈ f.holes) :
    f.body.HasHole hole := by
  rcases List.mem_map.1 hhole with ⟨r, hr, rfl⟩
  rcases escape_of_own hids hb ownSnippet_sublist hf hr with ⟨site, hnode, hid⟩
  rcases lookup_of_hole hb hf hr with ⟨inner, name, hbody⟩
  rw [hbody] at hnode
  exact ⟨site, inner, name, hnode, hid⟩

theorem nodup_holes (hf : b.fragments.get? id = some f) : f.holes.Nodup :=
  own_nodup hids hb ownSnippet_sublist hf

/-- In a program with different identities no hole is listed twice. -/
theorem holesOwnedOnce : HolesOwnedOnce b.fragments := by
  intro f hf g hg hole hhole hhole'
  rcases List.mem_map.1 hf with ⟨⟨id, f⟩, hentry, rfl⟩
  rcases List.mem_map.1 hg with ⟨⟨id', g⟩, hentry', rfl⟩
  have hget := Table.get?_eq_some_iff.2 hentry
  have hget' := Table.get?_eq_some_iff.2 hentry'
  rcases List.mem_map.1 hhole with ⟨r, hr, rfl⟩
  rcases List.mem_map.1 hhole' with ⟨r', hr', hsame⟩
  have hkeys : id = id' := own_unique hids hb ownSnippet_sublist hget hget' hr hr' hsame.symm
  rw [hkeys, hget'] at hget
  exact congrArg Fragment.id (Option.some.inj hget).symm

end Split

/-- What a fragment can fill is a hole of the program. -/
theorem hole_of_fills (hids : t.allIds.Nodup) (hb : Blueprint.ofTerm t types = .ok b) {hole : NodeId}
    (h : Fills b.fragments id hole) : t.HasHole hole := by
  rcases h with ⟨f, hf, hfills⟩
  rcases fragment_of_ofTerm hids hb hf with ⟨-, -, -, -, -, -, -, hassigns⟩
  rcases hassigns hole hfills with ⟨record, hrecord, rfl, definition, hdefinition, -⟩
  rcases hole_of_record hids hrecord with ⟨level, site, hnode, hid⟩
  rcases lookup_of_holeDefinition hdefinition with ⟨inner, name, hbody⟩
  rw [hbody] at hnode
  exact ⟨site, inner, name, Term.mem_nodes_of_nodesAt hnode, hid⟩

end Blueprint

end Multistage
