import Multistage.Proofs.FragmentEscapes

/-!
# The records of a variant and its code

A variant lists the escapes of its fragment and of the snippets that have been put in, with the bodies that
were recorded when the program was split. The code of the variant is made by filling holes, wherever they
stand, and they can stand in the body of an escape that is listed.

So the escapes that a variant lists stand in its code and are of the kind of the list. The recorded body is
that of the escape before holes were filled in it: `Term.Filled` says what filling can do to a term, and it does
nothing where no hole is.

Main statements: `variant_records_name_escapes` and `variant_record_keeps_hole`.
-/

namespace Multistage

/-! ## Filled code -/

namespace Term

/-- `t'` is the term `t` with some of its nodes replaced by terms that fit their identities. What has been put in
may have nodes replaced in turn. -/
inductive Filled (fits : NodeId → Term → Prop) : Term → Term → Prop
  | parts {t ts} : ts.length = t.children.length → (∀ a b, (a, b) ∈ t.children.zip ts → Filled fits a b) →
      Filled fits t (t.withChildren ts)
  | replaced {t new t'} : fits t.id new → Filled fits new t' → Filled fits t t'

namespace Filled

variable {fits : NodeId → Term → Prop} {t t' : Term} {g : NodeId → Option Term}

theorem node {ts : List Term} (h : List.Forall₂ (Filled fits) t.children ts) : Filled fits t (t.withChildren ts) :=
  .parts h.length_eq.symm fun _ _ hpair => (List.forall₂_iff_zip.1 h).2 hpair

protected theorem refl (t : Term) : Filled fits t t := by
  induction t using induct_children with
  | step t ih =>
    have hparts : Filled fits t (t.withChildren t.children) := node (List.forall₂_same.2 ih)
    rwa [withChildren_children] at hparts

theorem mono {fits' : NodeId → Term → Prop} (h : Filled fits t t') (hfits : ∀ id new, fits id new → fits' id new) :
    Filled fits' t t' := by
  induction h with
  | parts hlen _ ih => exact .parts hlen ih
  | replaced hnew _ ih => exact .replaced (hfits _ _ hnew) ih

/-- Nodes are replaced once more. -/
theorem substitute (h : Filled fits t t') (hg : ∀ id new, g id = some new → fits id new) :
    Filled fits t (t'.substitute g) := by
  induction h with
  | @parts t ts hlen _ ih =>
    have hparts : List.Forall₂ (fun a b => Filled fits a (b.substitute g)) t.children ts :=
      List.forall₂_iff_zip.2 ⟨hlen.symm, fun hpair => ih _ _ hpair⟩
    rw [substitute_eq, id_withChildren, children_withChildren hlen]
    cases hnew : g t.id with
    | some new => exact .replaced (hg _ _ hnew) (.refl new)
    | none =>
      rw [Option.getD_none, withChildren_withChildren hlen (by rw [List.length_map, hlen])]
      exact node (List.forall₂_map_right_iff.2 hparts)
  | replaced hnew _ ih => exact .replaced hnew ih

/-- Every node is one of those that have been put together, with its own parts filled. -/
theorem nodes (h : Filled fits t t') {all : List Term} (ht : t.nodes ⊆ all)
    (hfits : ∀ id new, fits id new → new.nodes ⊆ all) :
    ∀ node ∈ t'.nodes, ∃ origin ∈ all, ∃ ts, node = origin.withChildren ts ∧
      List.Forall₂ (Filled fits) origin.children ts := by
  induction h with
  | @parts t ts hlen hfilled ih =>
    intro node hnode
    rw [nodes_eq, children_withChildren hlen] at hnode
    rcases List.mem_cons.1 hnode with rfl | hnode
    · exact ⟨t, ht t.mem_nodes_self, ts, rfl, List.forall₂_iff_zip.2 ⟨hlen.symm, fun hpair => hfilled _ _ hpair⟩⟩
    · rcases List.mem_flatMap.1 hnode with ⟨part', hpart', hnode⟩
      have hpairs : List.Forall₂ (fun a b => (a, b) ∈ t.children.zip ts) t.children ts :=
        List.forall₂_iff_zip.2 ⟨hlen.symm, fun hpair => hpair⟩
      rcases exists_of_forall₂ hpairs.flip hpart' with ⟨part, hpart, hpair⟩
      exact ih part part' hpair (List.Subset.trans (nodes_child hpart) ht) node hnode
  | replaced hnew _ ih => exact ih (hfits _ _ hnew)

/-- Where nothing fits, nothing is replaced. -/
theorem eq_self (h : Filled fits t t') (hnone : ∀ id ∈ t.ids, ∀ new, ¬ fits id new) : t' = t := by
  induction h with
  | @parts t ts hlen _ ih =>
    have hsame : List.Forall₂ Eq t.children ts := by
      refine List.forall₂_iff_zip.2 ⟨hlen.symm, fun {a b} hpair => (ih a b hpair ?_).symm⟩
      exact fun id hid => hnone id (ids_child (List.of_mem_zip hpair).1 hid)
    rw [List.forall₂_eq_eq_eq] at hsame
    rw [← hsame, withChildren_children]
  | @replaced t _ _ hnew _ _ =>
    refine absurd hnew (hnone t.id ?_ _)
    rw [ids_eq]
    exact List.mem_cons_self

end Filled

/-! ## What is still there after nodes have been replaced -/

variable {t new : Term} {g : NodeId → Option Term} {id hole : NodeId}

/-- A node that stands in none of those that are replaced is kept. -/
theorem mem_ids_substitute (h : id ∈ t.ids) (hkept : ∀ node ∈ t.nodes, g node.id ≠ none → id ∉ node.ids) :
    id ∈ (t.substitute g).ids := by
  induction t using induct_children with
  | step t ih =>
    have hself : g t.id = none := by
      by_contra hsome
      exact hkept t t.mem_nodes_self hsome h
    rw [substitute_eq, hself, Option.getD_none, ids_eq, id_withChildren, children_withChildren (List.length_map _)]
    rw [ids_eq] at h
    rcases List.mem_cons.1 h with rfl | h
    · exact List.mem_cons_self
    · rcases List.mem_flatMap.1 h with ⟨child, hchild, h⟩
      have hbelow := ih child hchild h fun node hnode => hkept node (nodes_child hchild hnode)
      exact List.mem_cons_of_mem _ (List.mem_flatMap.2 ⟨_, List.mem_map_of_mem hchild, hbelow⟩)

/-- What a node is replaced by is put in, if the node stands in no other one that is replaced. -/
theorem ids_subset_substitute (h : hole ∈ t.ids) (hnew : g hole = some new)
    (hkept : ∀ node ∈ t.nodes, g node.id ≠ none → hole ∈ node.ids → node.id = hole) :
    new.ids ⊆ (t.substitute g).ids := by
  induction t using induct_children with
  | step t ih =>
    rw [substitute_eq]
    cases hself : g t.id with
    | some other =>
      rw [hkept t t.mem_nodes_self (by simp [hself]) h, hnew] at hself
      rw [Option.some.inj hself]
      exact List.Subset.refl _
    | none =>
      rw [ids_eq] at h
      rcases List.mem_cons.1 h with rfl | h
      · rw [hnew] at hself
        cases hself
      · rcases List.mem_flatMap.1 h with ⟨child, hchild, h⟩
        have hbelow := ih child hchild h fun node hnode => hkept node (nodes_child hchild hnode)
        rw [Option.getD_none]
        refine List.Subset.trans hbelow (ids_child ?_)
        rw [children_withChildren (List.length_map _)]
        exact List.mem_map_of_mem hchild

end Term

/-! ## Choices without repetition -/

section Choices

variable {fragments : Table Fragment} {choice holes : List NodeId}

/-- Different holes are filled by different snippets. -/
theorem nodup_of_fits (h : List.Forall₂ (Fills fragments) choice holes) (hholes : holes.Nodup) : choice.Nodup := by
  induction h with
  | nil => exact .nil
  | @cons id hole _ _ hfills hrest ih =>
    rcases List.nodup_cons.1 hholes with ⟨hnotin, hholes⟩
    refine List.nodup_cons.2 ⟨fun hid => hnotin ?_, ih hholes⟩
    rcases exists_of_forall₂ hrest hid with ⟨hole', hhole', hfills'⟩
    rw [hfills.unique hfills']
    exact hhole'

/-- For each hole there is one snippet of the choice. -/
theorem eq_of_fits (h : List.Forall₂ (Fills fragments) choice holes) (hholes : holes.Nodup) {id id' hole : NodeId}
    (hid : id ∈ choice) (hid' : id' ∈ choice) (hfills : Fills fragments id hole)
    (hfills' : Fills fragments id' hole) : id = id' := by
  have hget := forall₂_iff_getElem?.1 h
  rcases List.mem_iff_getElem?.1 hid with ⟨i, hi⟩
  rcases List.mem_iff_getElem?.1 hid' with ⟨j, hj⟩
  have hlt : i < holes.length := hget.1 ▸ (List.getElem?_eq_some_iff.1 hi).1
  have hlt' : j < holes.length := hget.1 ▸ (List.getElem?_eq_some_iff.1 hj).1
  have hhole := (hget.2 i id _ hi (List.getElem?_eq_getElem hlt)).unique hfills
  have hhole' := (hget.2 j id' _ hj (List.getElem?_eq_getElem hlt')).unique hfills'
  have hsame : i = j := (List.Nodup.getElem_inj_iff hholes).1 (hhole.trans hhole'.symm)
  rw [hsame, hj] at hi
  exact (Option.some.inj hi).symm

/-- Different snippets bring different holes. -/
theorem nodup_opened (hkeyed : ∀ entry ∈ fragments.entries, entry.2.id = entry.1)
    (honce : HolesOwnedOnce fragments) (hholes : ∀ id f, fragments.get? id = some f → f.holes.Nodup)
    (hchoice : choice.Nodup) : (choice.flatMap (opened fragments)).Nodup := by
  refine List.nodup_flatMap.2 ⟨fun id _ => ?_, ?_⟩
  · cases hget : fragments.get? id with
    | none => simp [opened, hget]
    | some f =>
      rw [opened_of_get? hget]
      exact hholes id f hget
  · refine hchoice.imp fun {id id'} hne hole hhole hhole' => hne ?_
    exact eq_of_mem_opened hkeyed honce hhole hhole'

end Choices

/-! ## The code of partial variants -/

/-- The body is that of a chosen snippet, which fills the hole. -/
def Chosen (fragments : Table Fragment) (config : List NodeId) (hole : NodeId) (body : Term) : Prop :=
  ∃ id ∈ config, ∃ snippet, fragments.get? id = some snippet ∧ snippet.fills = some hole ∧ snippet.body = body

/-- The identity is that of an escape, and not of a hole. -/
def Term.HasEscape (t : Term) (id : NodeId) : Prop :=
  ∃ site kind body, .escape site kind body ∈ t.nodes ∧ site.id = id ∧ kind ≠ .snippet

section Program

variable {t : Term} {types : TypeTable} {b : Blueprint} (hids : t.allIds.Nodup)
  (hb : Blueprint.ofTerm t types = .ok b) {config : List NodeId} {code code' node : Term} {id hole : NodeId}

include hids hb

/-- An escape in filled code is one of the program, with its body filled. -/
theorem escape_of_filled (h : code.Filled (Chosen b.fragments config) code') (hcode : code.nodes ⊆ t.nodes)
    (hnode : node ∈ code'.nodes) {site : Site} {kind : EscapeKind} {body : Term}
    (hescape : .escape site kind body ∈ t.nodes) (hid : node.id = site.id) :
    ∃ body', node = .escape site kind body' ∧ body.Filled (Chosen b.fragments config) body' := by
  have hids' := t.ids_sublist_allIds.nodup hids
  have hchosen : ∀ hole new, Chosen b.fragments config hole new → new.nodes ⊆ t.nodes := by
    rintro hole new ⟨key, -, snippet, hget, -, rfl⟩
    exact Blueprint.body_subset hids' hb hget
  rcases h.nodes hcode hchosen node hnode with ⟨origin, horigin, ts, rfl, hparts⟩
  rw [Term.id_withChildren] at hid
  cases Term.eq_of_id hids' horigin hescape hid
  rcases List.forall₂_cons_left_iff.1 hparts with ⟨body', rest, hbody, hnil, rfl⟩
  cases hnil
  exact ⟨body', rfl, hbody⟩

/-- Holes of the program that are left in filled code hold nothing but a name. -/
theorem hole_of_filled (h : code.Filled (Chosen b.fragments config) code') (hcode : code.nodes ⊆ t.nodes)
    (hnode : node ∈ code'.nodes) (hhole : t.HasHole node.id) : ∃ site inner name,
      node = .escape site .snippet (.lookup inner name) ∧
      .escape site .snippet (.lookup inner name) ∈ t.nodes := by
  have hids' := t.ids_sublist_allIds.nodup hids
  rcases hhole with ⟨site, inner, name, hescape, hid⟩
  rcases escape_of_filled hids hb h hcode hnode hescape hid.symm with ⟨body', rfl, hbody⟩
  refine ⟨site, inner, name, ?_, hescape⟩
  rw [hbody.eq_self]
  -- the name is not a hole itself
  rintro id hid new ⟨key, -, snippet, hget, hfills, -⟩
  rcases Blueprint.hole_of_fills hids hb ⟨snippet, hget, hfills⟩ with ⟨site', inner', name', hescape', hid'⟩
  rw [List.mem_singleton.1 hid] at hid'
  cases Term.eq_of_id hids' hescape' (Term.body_of_escape hescape) hid'

/-- The one escape that stands in a hole is the hole. -/
theorem escape_in_hole (h : code.Filled (Chosen b.fragments config) code') (hcode : code.nodes ⊆ t.nodes)
    (hnode : node ∈ code'.nodes) (hhole : t.HasHole node.id) {site : Site} {kind : EscapeKind} {body : Term}
    (hescape : .escape site kind body ∈ t.nodes) (hmem : site.id ∈ node.ids) :
    kind = .snippet ∧ node.id = site.id := by
  have hids' := t.ids_sublist_allIds.nodup hids
  rcases hole_of_filled hids hb h hcode hnode hhole with ⟨site', inner, name, rfl, hescape'⟩
  rcases List.mem_cons.1 hmem with hsame | hsame
  · cases Term.eq_of_id hids' hescape hescape' hsame
    exact ⟨rfl, rfl⟩
  · cases Term.eq_of_id hids' hescape (Term.body_of_escape hescape') (List.mem_singleton.1 hsame)

end Program

/-- The code of a partial variant of `f` is that of `f`, filled with the chosen snippets. It has the escapes of
`f` and of the snippets, and the holes that are left to fill, each listed once. -/
structure PartialVariant.Keeps (t : Term) (fragments : Table Fragment) (f : Fragment) (p : PartialVariant) :
    Prop where
  filled : f.body.Filled (Chosen fragments p.config) p.fragment.body
  own : ∀ id ∈ f.body.ids, t.HasEscape id → id ∈ p.fragment.body.ids
  chosen : ∀ key ∈ p.config, ∀ c, fragments.get? key = some c → ∀ id ∈ c.body.ids, t.HasEscape id →
    id ∈ p.fragment.body.ids
  holes : ∀ hole ∈ p.fragment.holes, hole ∈ p.fragment.body.ids
  once : p.fragment.holes.Nodup

section Program

variable {t : Term} {types : TypeTable} {b : Blueprint} (hids : t.allIds.Nodup)
  (hb : Blueprint.ofTerm t types = .ok b) {f : Fragment} {p q : PartialVariant} {choice : List NodeId}

include hids hb

theorem hole_mem_body {id hole : NodeId} {c : Fragment} (hget : b.fragments.get? id = some c)
    (hhole : hole ∈ c.holes) : hole ∈ c.body.ids := by
  rcases Blueprint.hole_of_fragment (t.ids_sublist_allIds.nodup hids) hb hget hhole with
    ⟨site, inner, name, hnode, hid⟩
  exact List.mem_map.2 ⟨_, hnode, hid⟩

/-- At the start a variant is its fragment. -/
theorem PartialVariant.keeps_start {id : NodeId} (hf : b.fragments.get? id = some f) :
    PartialVariant.Keeps t b.fragments f { fragment := f } where
  filled := .refl _
  own _ hid _ := hid
  chosen _ hkey := absurd hkey List.not_mem_nil
  holes _ hhole := hole_mem_body hids hb hf hhole
  once := Blueprint.nodup_holes (t.ids_sublist_allIds.nodup hids) hb hf

/-- Growing replaces holes of the program, among them all those left to fill, by bodies of chosen snippets. -/
theorem PartialVariant.Grows.body (hgrows : p.Grows b.fragments choice q) :
    ∃ bodies : Table Term, q.fragment.body = p.fragment.body.substitute bodies.get? ∧
      (∀ hole ∈ p.fragment.holes, bodies.get? hole ≠ none) ∧
      (∀ hole, bodies.get? hole ≠ none → t.HasHole hole) ∧
      ∀ hole body, bodies.get? hole = some body → Chosen b.fragments choice hole body := by
  rcases Fragment.body_of_fill hgrows.fill hgrows.fits with ⟨bodies, hbody, hall, hbodies⟩
  refine ⟨bodies, hbody, hall, fun hole hne => ?_, fun hole body hget => (hbodies hole body hget).2⟩
  rcases Option.ne_none_iff_exists'.1 hne with ⟨body, hget⟩
  rcases hbodies hole body hget with ⟨-, key, -, snippet, hsnippet, hfills, -⟩
  exact Blueprint.hole_of_fills hids hb ⟨snippet, hsnippet, hfills⟩

namespace PartialVariant.Keeps

variable {id : NodeId} (hf : b.fragments.get? id = some f) (h : p.Keeps t b.fragments f)
  (hgrows : p.Grows b.fragments choice q)

include hf h hgrows

/-- Escapes stay in the code, as none of them stands in a hole. -/
theorem stays : ∀ id ∈ p.fragment.body.ids, t.HasEscape id → id ∈ q.fragment.body.ids := by
  rcases hgrows.body hids hb with ⟨bodies, hbody, -, hhole, -⟩
  have hcode := Blueprint.body_subset (t.ids_sublist_allIds.nodup hids) hb hf
  rintro id hid ⟨site, kind, body, hescape, rfl, hkind⟩
  rw [hbody]
  refine Term.mem_ids_substitute hid fun node hnode hne hmem => hkind ?_
  exact (escape_in_hole hids hb h.filled hcode hnode (hhole _ hne) hescape hmem).1

/-- The code of every snippet of the choice is put in where its hole was. -/
theorem placed {key : NodeId} (hkey : key ∈ choice) {c : Fragment} (hget : b.fragments.get? key = some c) :
    c.body.ids ⊆ q.fragment.body.ids := by
  rcases hgrows.body hids hb with ⟨bodies, hbody, hall, hhole, hbodies⟩
  have hcode := Blueprint.body_subset (t.ids_sublist_allIds.nodup hids) hb hf
  rcases fills_of_choice hgrows.fits hkey hget with ⟨hole, hopen, hfills⟩
  rcases Option.ne_none_iff_exists'.1 (hall hole hopen) with ⟨body, hnew⟩
  -- the choice has no other snippet for the hole
  rcases hbodies hole body hnew with ⟨key', hkey', snippet, hget', hfills', rfl⟩
  have hsame : key' = key :=
    eq_of_fits hgrows.fits h.once hkey' hkey ⟨snippet, hget', hfills'⟩ ⟨c, hget, hfills⟩
  rw [hsame, hget] at hget'
  cases hget'
  rw [hbody]
  refine Term.ids_subset_substitute (h.holes hole hopen) hnew fun node hnode hne hmem => ?_
  rcases Blueprint.hole_of_fills hids hb ⟨c, hget, hfills⟩ with ⟨site, inner, name, hescape, rfl⟩
  exact (escape_in_hole hids hb h.filled hcode hnode (hhole _ hne) hescape hmem).2

/-- A round keeps what the code of a variant is and what its lists name. -/
theorem grow : q.Keeps t b.fragments f := by
  have hids' := t.ids_sublist_allIds.nodup hids
  have hstays := h.stays hids hb hf hgrows
  have hholes := Fragment.holes_of_fill hgrows.fill hgrows.fits
  constructor
  · rcases hgrows.body hids hb with ⟨bodies, hbody, -, -, hbodies⟩
    rw [hbody, hgrows.config]
    refine (h.filled.mono ?_).substitute ?_
    · rintro hole new ⟨key, hkey, hsnippet⟩
      exact ⟨key, List.mem_append_left _ hkey, hsnippet⟩
    · intro hole new hnew
      rcases hbodies hole new hnew with ⟨key, hkey, hsnippet⟩
      exact ⟨key, List.mem_append_right _ hkey, hsnippet⟩
  · exact fun id hid hescape => hstays id (h.own id hid hescape) hescape
  · intro key hkey c hget id hid hescape
    rw [hgrows.config] at hkey
    rcases List.mem_append.1 hkey with hkey | hkey
    · exact hstays id (h.chosen key hkey c hget id hid hescape) hescape
    · exact h.placed hids hb hf hgrows hkey hget hid
  · intro hole hopen
    rw [hholes] at hopen
    rcases List.mem_flatMap.1 hopen with ⟨key, hkey, hopen⟩
    rcases exists_of_forall₂ hgrows.fits hkey with ⟨-, -, c, hget, -⟩
    rw [opened_of_get? hget] at hopen
    exact h.placed hids hb hf hgrows hkey hget (hole_mem_body hids hb hget hopen)
  · rw [hholes]
    exact nodup_opened (Blueprint.keyed_of_ofTerm hids hb) (Blueprint.holesOwnedOnce hids' hb)
      (fun _ _ hget => Blueprint.nodup_holes hids' hb hget) (nodup_of_fits hgrows.fits h.once)

end PartialVariant.Keeps

/-- An escape that a partial variant lists stands in its code, and filling holes is all that has been done to
its body. -/
theorem PartialVariant.Keeps.escape {id : NodeId} (hf : b.fragments.get? id = some f)
    (h : p.Keeps t b.fragments f) (hcollects : p.Collects b.fragments f) {kind : EscapeKind}
    {list : Fragment → List EscapeRecord} (hlist : (kind, list) ∈ escapeLists) {r : EscapeRecord}
    (hr : r ∈ list p.fragment) :
    r.id ∈ p.fragment.body.ids ∧ ∀ node ∈ p.fragment.body.nodes, node.id = r.id →
      ∃ site body, node = .escape site kind body ∧ r.body.Filled (Chosen b.fragments p.config) body := by
  have hids' := t.ids_sublist_allIds.nodup hids
  rcases hcollects with ⟨chosen, hconfig, hgathered⟩
  rcases exists_of_forall₂ (hgathered.escapes kind list hlist).flip hr with ⟨origin, horigin, hrelocated⟩
  rcases List.mem_flatMap.1 horigin with ⟨c, hc, horigin⟩
  rcases List.mem_map.1 horigin with ⟨record, hrecord, rfl⟩
  have hkind : kind ≠ .snippet := by
    rcases mem_escapeLists.1 hlist with ⟨rfl, -⟩ | ⟨rfl, -⟩ | ⟨rfl, -⟩ | ⟨rfl, -⟩ <;> decide
  -- the record comes from the fragment or from a chosen snippet
  have hkept : ∃ key, b.fragments.get? key = some c ∧
      ∀ id ∈ c.body.ids, t.HasEscape id → id ∈ p.fragment.body.ids := by
    rcases List.mem_cons.1 hc with rfl | hc
    · exact ⟨id, hf, h.own⟩
    · rcases exists_of_forall₂ hconfig.flip hc with ⟨key, hkey, hget⟩
      exact ⟨key, hget, h.chosen key hkey c hget⟩
  rcases hkept with ⟨key, hget, hkept⟩
  rcases Blueprint.escape_of_record hids' hb hlist hget hrecord with ⟨site, hnode, hid⟩
  have hescape := Blueprint.body_subset hids' hb hget hnode
  rw [hrelocated.id, hrelocated.body, ← hid]
  refine ⟨hkept site.id (List.mem_map.2 ⟨_, hnode, rfl⟩) ⟨site, kind, record.body, hescape, rfl, hkind⟩, ?_⟩
  intro node hmem hsame
  rcases escape_of_filled hids hb h.filled (Blueprint.body_subset hids' hb hf) hmem hescape hsame with
    ⟨body, rfl, hbody⟩
  exact ⟨site, body, rfl, hbody⟩

end Program

/-- **Records of a variant name escapes in its code.** Let a program with different identities elaborate, let its
explicit form be split into units, and let there be a table of variants. Each record in a list of escapes of a
variant is that of an escape of the kind of the list which occurs in the code of the variant. Wherever it
occurs, its body is the recorded one with holes filled by the chosen snippets, and the recorded one itself if it
has no hole that a chosen snippet fills. -/
theorem variant_records_name_escapes (p : Prelude) (t : Term) (supply : Supply) (e : Elaboration) (q : Program)
    (e' : Elaboration) (b : Blueprint) (table : VariantTable) (hids : t.allIds.Nodup)
    (hsupply : ∀ id ∈ t.allIds, id < supply.next) (he : p.elaborate t = .ok e)
    (hq : Program.makeExplicit ⟨t, supply⟩ e.table = .ok q) (he' : p.elaborate q.root = .ok e')
    (hb : Blueprint.ofTerm q.root e'.table = .ok b) (htable : variantTable b.fragments = .ok table) :
    ∀ id vs, table.get? id = some (some vs) → ∀ v ∈ vs, ∀ key f, v.fragments.get? key = some f →
      ∀ kind list, (kind, list) ∈ escapeLists → ∀ r ∈ list f,
        r.id ∈ f.body.ids ∧ ∀ node ∈ f.body.nodes, node.id = r.id →
          ∃ site body, node = .escape site kind body ∧ r.body.Filled (Chosen b.fragments v.config) body ∧
            ((∀ hole ∈ r.body.ids, ∀ new, ¬ Chosen b.fragments v.config hole new) → body = r.body) := by
  rcases judged_of_elaborate_explicit hids hsupply he hq he' with ⟨j, log, -, -, -, hids'⟩
  have hkeyed := Blueprint.keyed_of_ofTerm hids' hb
  intro id vs hvs v hv key f hf kind list hlist r hr
  rcases variants?_of_variantTable hkeyed htable hvs with ⟨whole, hwhole, hvariants⟩
  -- two invariants of the rounds: what the code is, and where the listed escapes come from
  have hgrow : ∀ (first next : PartialVariant) choice,
      first.Keeps q.root b.fragments whole ∧ first.Collects b.fragments whole →
      first.Grows b.fragments choice next →
      next.Keeps q.root b.fragments whole ∧ next.Collects b.fragments whole := by
    intro first next choice hfirst hgrows
    exact ⟨hfirst.1.grow hids' hb hwhole hgrows, hfirst.2.grow hgrows⟩
  have hstart : PartialVariant.Keeps q.root b.fragments whole { fragment := whole } ∧
      PartialVariant.Collects b.fragments whole { fragment := whole } :=
    ⟨PartialVariant.keeps_start hids' hb hwhole, [], .nil, whole.gathered_self⟩
  rcases Fragment.variants?_rounds hkeyed hgrow hvariants hstart v hv with ⟨last, ⟨hkeeps, hcollects⟩, -, rfl⟩
  rw [Table.get?_insert] at hf
  split at hf
  · cases hf
    rcases hkeeps.escape hids' hb hwhole hcollects hlist hr with ⟨hmem, hnodes⟩
    refine ⟨hmem, fun node hnode hid => ?_⟩
    rcases hnodes node hnode hid with ⟨site, body, hescape, hfilled⟩
    exact ⟨site, body, hescape, hfilled, hfilled.eq_self⟩
  · cases hf

/-- `var s = $< < 1 > >; < < [ $[s] ] > >`: the outer fragment has a hole in a splice of the inner one. -/
def holeInSplice : Term :=
  .seq ⟨0, {}⟩
    (.define ⟨1, {}⟩ "s" (.quote ⟨2, {}⟩ none true (.quote ⟨3, {}⟩ none false (.literal ⟨4, {}⟩ (.int 1)))))
    (.quote ⟨5, {}⟩ none false (.quote ⟨6, {}⟩ none false
      (.escape ⟨7, {}⟩ .splice (.escape ⟨8, {}⟩ .snippet (.lookup ⟨9, {}⟩ "s")))))

/-- The splice that the variant of the outer fragment lists stands in its code, and has the hole filled there. -/
theorem variant_records_name_escapes_holeInSplice : ∃ e q e' b table v f r body,
    Prelude.general.elaborate holeInSplice = .ok e ∧
      Program.makeExplicit ⟨holeInSplice, ⟨10⟩⟩ e.table = .ok q ∧ Prelude.general.elaborate q.root = .ok e' ∧
      Blueprint.ofTerm q.root e'.table = .ok b ∧ variantTable b.fragments = .ok table ∧
      table.get? 5 = some (some [v]) ∧ v.fragments.get? 5 = some f ∧ f.splice = [r] ∧ r.id ∈ f.body.ids ∧
      .escape ⟨7, {}⟩ .splice body ∈ f.body.nodes ∧ r.body.Filled (Chosen b.fragments v.config) body := by
  obtain ⟨e, q, e', b, table, v, f, r, he, hq, he', hb, htable, hv, hf, hr, hid, hnode⟩ :
      ∃ e q e' b table v f r, Prelude.general.elaborate holeInSplice = .ok e ∧
        Program.makeExplicit ⟨holeInSplice, ⟨10⟩⟩ e.table = .ok q ∧ Prelude.general.elaborate q.root = .ok e' ∧
        Blueprint.ofTerm q.root e'.table = .ok b ∧ variantTable b.fragments = .ok table ∧
        table.get? 5 = some (some [v]) ∧ v.fragments.get? 5 = some f ∧ f.splice = [r] ∧ r.id = 7 ∧
        .escape ⟨7, {}⟩ .splice (.quote ⟨3, {}⟩ none false (.literal ⟨4, {}⟩ (.int 1))) ∈ f.body.nodes :=
    ⟨_, _, _, _, _, _, _, _, rfl, rfl, rfl, rfl, rfl, rfl, rfl, rfl, rfl, .tail _ (.head _)⟩
  have hrecord := variant_records_name_escapes Prelude.general holeInSplice ⟨10⟩ e q e' b table (by decide)
    (Term.allIds_lt_of_all rfl) he hq he' hb htable 5 [v] hv v (List.mem_singleton.2 rfl) 5 f hf .splice (·.splice)
    (by simp [escapeLists]) r (by rw [hr]; exact List.mem_singleton.2 rfl)
  rcases hrecord.2 _ hnode hid.symm with ⟨site, body, hsame, hfilled, -⟩
  cases hsame
  exact ⟨e, q, e', b, table, v, f, r, _, he, hq, he', hb, htable, hv, hf, hr, hrecord.1, hnode, hfilled⟩

/-- The recorded body is not that of the escape in the code: the hole is still in it. -/
theorem variant_record_keeps_hole : ∃ e q e' b table v f,
    Prelude.general.elaborate holeInSplice = .ok e ∧
      Program.makeExplicit ⟨holeInSplice, ⟨10⟩⟩ e.table = .ok q ∧ Prelude.general.elaborate q.root = .ok e' ∧
      Blueprint.ofTerm q.root e'.table = .ok b ∧ variantTable b.fragments = .ok table ∧
      table.get? 5 = some (some [v]) ∧ v.fragments.get? 5 = some f ∧
      f.splice = [⟨7, .escape ⟨8, {}⟩ .snippet (.lookup ⟨9, {}⟩ "s"), 6⟩] ∧
      f.body = .quote ⟨6, {}⟩ none false
        (.escape ⟨7, {}⟩ .splice (.quote ⟨3, {}⟩ none false (.literal ⟨4, {}⟩ (.int 1)))) :=
  ⟨_, _, _, _, _, _, _, rfl, rfl, rfl, rfl, rfl, rfl, rfl, rfl, rfl⟩

end Multistage
