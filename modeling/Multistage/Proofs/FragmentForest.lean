import Mathlib.Logic.Relation
import Multistage.Proofs.UnitRecords

/-!
# Fragments form a forest

Each quote of a program is one fragment, which is listed once: by the innermost fragment around it, or else by
the procedure that it stands in. Fragments are opened from the outside in, so going up from one of them ends,
and the survey can add up escapes in the opposite order: when it comes to a fragment, the lists of those inside
it are complete (`Survey.get?_collect`).

Main statement: `fragments_form_forest`.
-/

namespace Multistage

/-! ## Adding up, innermost first -/

namespace Survey

variable {s : Survey} {id : NodeId} {order : List NodeId} {fragments : Table Fragment}

theorem get?_foldl_collect (h : id ∉ order) :
    (order.foldl (fun fs id => fs.modify id (collectInto fs)) fragments).get? id = fragments.get? id := by
  induction order generalizing fragments with
  | nil => rfl
  | cons key rest ih =>
    rw [List.mem_cons, not_or] at h
    rw [List.foldl_cons, ih h.2, Table.get?_modify, if_neg h.1]

/-- In a list without repetition, what stands before the last of two members stands before any place where
the list is cut at it. -/
theorem mem_of_sublist_pair {inner : NodeId} {before after : List NodeId}
    (hnodup : (before ++ id :: after).Nodup) (h : [inner, id].Sublist (before ++ id :: after)) :
    inner ∈ before := by
  have hcut := (List.nodup_cons.1 (List.nodup_append.1 hnodup).2.1).1
  rcases List.sublist_append_iff.1 h with ⟨first, last, heq, hfirst, hlast⟩
  cases first with
  | nil =>
    rw [List.nil_append] at heq
    rw [← heq] at hlast
    cases hlast with
    | cons _ hlast => exact absurd (hlast.subset (by simp)) hcut
    | cons_cons _ hlast => exact absurd (hlast.subset (by simp)) hcut
  | cons x first =>
    rw [(List.cons.inj heq).1]
    exact hfirst.subset List.mem_cons_self

/-- What is added up for a fragment comes from the complete lists of the fragments inside it, if these stand
before it in the order. -/
theorem get?_collect (hnodup : s.order.Nodup) (hid : id ∈ s.order)
    (hnested : ∀ f, s.fragments.get? id = some f → ∀ inner ∈ f.nested, [inner, id].Sublist s.order) :
    s.collect.fragments.get? id = (s.fragments.get? id).map (collectInto s.collect.fragments) := by
  rcases List.append_of_mem hid with ⟨before, after, hcut⟩
  rw [hcut] at hnodup hnested
  have hbefore : id ∉ before := fun hmem => (List.nodup_append.1 hnodup).2.2 id hmem id List.mem_cons_self rfl
  have hafter : id ∉ after := (List.nodup_cons.1 (List.nodup_append.1 hnodup).2.1).1
  simp only [collect, hcut, List.foldl_append, List.foldl_cons]
  generalize hmiddle : before.foldl (fun fs id => fs.modify id (collectInto fs)) s.fragments = middle
  rw [get?_foldl_collect hafter, Table.get?_modify, if_pos rfl, ← hmiddle, get?_foldl_collect hbefore, hmiddle]
  refine Option.map_congr fun f hf => ?_
  -- the lists of the fragments inside are not changed any more
  have hsame : f.nested.filterMap middle.get? = f.nested.filterMap
      (after.foldl (fun fs id => fs.modify id (collectInto fs)) (middle.modify id (collectInto middle))).get? := by
    refine List.filterMap_congr fun inner hinner => ?_
    have hin := mem_of_sublist_pair hnodup (hnested f hf inner hinner)
    have hne : inner ≠ id := fun heq => hbefore (heq ▸ hin)
    have hnotin : inner ∉ after := fun hmem =>
      (List.nodup_append.1 hnodup).2.2 inner hin inner (List.mem_cons_of_mem _ hmem) rfl
    rw [get?_foldl_collect hnotin, Table.get?_modify, if_neg hne]
  simp only [collectInto, hsame]

end Survey

/-! ## Which fragment holds which -/

namespace Blueprint

variable {t : Term} {types : TypeTable} {b : Blueprint} {id outer inner : NodeId} {f : Fragment}

/-- A fragment lists another one as directly inside it. -/
def Holds (b : Blueprint) (outer inner : NodeId) : Prop :=
  ∃ f, b.fragments.get? outer = some f ∧ inner ∈ f.nested

/-- The fragment that a fragment names as the one around it. -/
def fragmentAbove? (b : Blueprint) (id : NodeId) : Option NodeId := (b.fragments.get? id).bind (·.parent)

/-- A fragment is placed in another one exactly if that lists it. -/
theorem mem_placements_iff_holds :
    (.fragment outer, .fragment inner) ∈ b.placements ↔ b.Holds outer inner := by
  simp only [placements, List.mem_append, Procedure.placements, Fragment.placements, Table.mem_contents,
    List.mem_map, Prod.mk.injEq, Home.fragment.injEq, reduceCtorEq, false_and, and_false, exists_false, or_self,
    false_or, Holds]
  constructor
  · rintro ⟨id, f, hf, inner', hmem, rfl, rfl⟩
    exact ⟨f, hf, hmem⟩
  · rintro ⟨f, hf, hmem⟩
    exact ⟨outer, f, hf, inner, hmem, rfl, rfl⟩

/-- A fragment is inside another one if that is the innermost open quote around it. -/
theorem holds_iff (hids : t.ids.Nodup) (hb : Blueprint.ofTerm t types = .ok b) : b.Holds outer inner ↔
    ∃ path site label snippet body, (path, .quote site label snippet body) ∈ t.lineages [] ∧ site.id = inner ∧
      (openQuotes path).head? = some outer := by
  rw [← mem_placements_iff_holds, (perm_placements hids hb).mem_iff, Term.mem_placements]
  constructor
  · rintro ⟨path, node, hnode, hplaced⟩
    unfold Term.placementAt at hplaced
    split at hplaced
    · next site label snippet body =>
      obtain ⟨houter, hinner⟩ := Prod.mk.inj (List.mem_singleton.1 hplaced)
      refine ⟨path, site, label, snippet, body, hnode, (Home.fragment.inj hinner).symm, ?_⟩
      rw [← Position.fragments_along t.id, ← Position.home_eq_fragment_iff]
      exact houter.symm
    · split at hplaced
      · cases List.mem_singleton.1 hplaced
      · cases hplaced
    · cases hplaced
  · rintro ⟨path, site, label, snippet, body, hnode, rfl, houter⟩
    refine ⟨path, _, hnode, List.mem_singleton.2 ?_⟩
    rw [← Position.fragments_along t.id, ← Position.home_eq_fragment_iff] at houter
    rw [houter]

/-- A fragment is listed by the one that it names as the one around it. -/
theorem holds_iff_parent (hids : t.ids.Nodup) (hb : Blueprint.ofTerm t types = .ok b)
    (hf : b.fragments.get? id = some f) : b.Holds outer id ↔ f.parent = some outer := by
  rcases (fragment_iff hids hb).1 ⟨f, hf, rfl⟩ with ⟨path, site, label, snippet, body, hnode, hid, hhead⟩
  have hparent : f.parent = (openQuotes path).head? := congrArg Fragment.parent hhead
  rw [holds_iff hids hb, hparent]
  constructor
  · rintro ⟨path', site', label', snippet', body', hnode', hid', houter⟩
    have hsame := Term.lineage_unique hids hnode hnode' (hid.trans hid'.symm)
    rw [(Prod.mk.inj hsame).1]
    exact houter
  · intro houter
    exact ⟨path, site, label, snippet, body, hnode, hid, houter⟩

/-- What a fragment lists are fragments. -/
theorem Holds.record (hids : t.ids.Nodup) (hb : Blueprint.ofTerm t types = .ok b) (h : b.Holds outer inner) :
    ∃ f, b.fragments.get? inner = some f := by
  rcases (holds_iff hids hb).1 h with ⟨path, site, label, snippet, body, hnode, hid, -⟩
  rcases (fragment_iff hids hb).2 ⟨path, site, label, snippet, body, hnode, hid, rfl⟩ with ⟨f, hf, -⟩
  exact ⟨f, hf⟩

/-- A fragment is inside one other at most. -/
theorem Holds.unique (hids : t.ids.Nodup) (hb : Blueprint.ofTerm t types = .ok b) {outer' : NodeId}
    (h : b.Holds outer inner) (h' : b.Holds outer' inner) : outer = outer' := by
  rcases h.record hids hb with ⟨f, hf⟩
  have hparent := (holds_iff_parent hids hb hf).1 h
  rw [(holds_iff_parent hids hb hf).1 h'] at hparent
  exact (Option.some.inj hparent).symm

/-- A fragment stands before those around it in the order of adding up. -/
theorem Holds.sublist (hids : t.ids.Nodup) (hb : Blueprint.ofTerm t types = .ok b) (h : b.Holds outer inner) :
    [inner, outer].Sublist t.survey.order := by
  have hplaced := (perm_placements hids hb).mem_iff.1 (mem_placements_iff_holds.2 h)
  rw [(t.heads_survey (escapesInside_of_ofTerm hb)).order, Term.fragments_openings]
  rcases (Term.grows_root hids).sublist hplaced with hroot | ⟨id, hself, -⟩ | hsublist
  · -- only a procedure is there before the walk
    unfold Term.rootUnits at hroot
    split at hroot
    · cases hroot
    · cases List.mem_singleton.1 hroot
  · cases hself
  · exact (hsublist.filterMap Home.fragment?).reverse

theorem nodup_order (hids : t.ids.Nodup) (hb : Blueprint.ofTerm t types = .ok b) : t.survey.order.Nodup := by
  rw [(t.heads_survey (escapesInside_of_ofTerm hb)).order, List.nodup_reverse]
  exact (Term.nodup_openings hids).1

/-- The fragments inside a fragment come before it in the order of adding up. -/
theorem Holds.idxOf_lt (hids : t.ids.Nodup) (hb : Blueprint.ofTerm t types = .ok b) (h : b.Holds outer inner) :
    t.survey.order.idxOf inner < t.survey.order.idxOf outer := by
  have hsublist := h.sublist hids hb
  have hnodup := nodup_order hids hb
  have hmem : outer ∈ t.survey.order := hsublist.subset (by simp)
  rcases List.append_of_mem hmem with ⟨before, after, hcut⟩
  rw [hcut] at hnodup hsublist ⊢
  have hin := Survey.mem_of_sublist_pair hnodup hsublist
  have hnotin : outer ∉ before := fun hout => (List.nodup_append.1 hnodup).2.2 outer hout outer List.mem_cons_self rfl
  rw [List.idxOf_append_of_mem hin, List.idxOf_append_of_notMem hnotin]
  exact Nat.lt_add_right _ (List.idxOf_lt_length_of_mem hin)

/-- Facts about fragments can be proved from the inside out. -/
theorem inside_out (hids : t.ids.Nodup) (hb : Blueprint.ofTerm t types = .ok b) {P : NodeId → Fragment → Prop}
    (h : ∀ id f, b.fragments.get? id = some f →
      (∀ inner ∈ f.nested, ∀ g, b.fragments.get? inner = some g → P inner g) → P id f) :
    ∀ id f, b.fragments.get? id = some f → P id f := by
  intro id
  induction hrank : t.survey.order.idxOf id using Nat.strongRecOn generalizing id with
  | _ rank ih =>
    intro f hf
    refine h id f hf fun inner hinner g hg => ?_
    have hlt := Holds.idxOf_lt hids hb ⟨f, hf, hinner⟩
    exact ih _ (hrank ▸ hlt) inner rfl g hg

/-- No fragment is inside itself. -/
theorem not_inside_itself (hids : t.ids.Nodup) (hb : Blueprint.ofTerm t types = .ok b) (h : b.Holds outer inner) :
    ¬ Relation.ReflTransGen b.Holds inner outer := by
  have hle : ∀ {first last}, Relation.ReflTransGen b.Holds first last →
      t.survey.order.idxOf last ≤ t.survey.order.idxOf first := by
    intro first last hpath
    induction hpath with
    | refl => exact Nat.le_refl _
    | tail _ hstep ih => exact Nat.le_trans (Nat.le_of_lt (hstep.idxOf_lt hids hb)) ih
  intro hpath
  have hlt := h.idxOf_lt hids hb
  have hback := hle hpath
  omega

/-- Two fragments directly inside the same one have nothing inside both. -/
theorem inside_one (hids : t.ids.Nodup) (hb : Blueprint.ofTerm t types = .ok b) {inner' common : NodeId}
    (h : b.Holds outer inner) (h' : b.Holds outer inner') (hpath : Relation.ReflTransGen b.Holds inner common)
    (hpath' : Relation.ReflTransGen b.Holds inner' common) : inner = inner' := by
  -- a way from one of the two to the other leads through the fragment around them
  have hapart : ∀ {first last}, b.Holds outer first → b.Holds outer last →
      Relation.ReflTransGen b.Holds first last → first = last := by
    intro first last hfirst hlast hway
    rcases hway.cases_tail with heq | ⟨middle, hway, hstep⟩
    · exact heq.symm
    · rw [hstep.unique hids hb hlast] at hway
      exact absurd hway (not_inside_itself hids hb hfirst)
  have hunique : Relator.RightUnique (Function.swap b.Holds) := by
    intro low high high' hhigh hhigh'
    exact Holds.unique hids hb hhigh hhigh'
  rcases Relation.ReflTransGen.total_of_right_unique hunique (Relation.reflTransGen_swap.2 hpath)
    (Relation.reflTransGen_swap.2 hpath') with hway | hway
  · exact (hapart h' h (Relation.reflTransGen_swap.1 hway)).symm
  · exact hapart h h' (Relation.reflTransGen_swap.1 hway)

/-! ## Escapes that are added up -/

/-- A fragment's list of all escapes adds up its own list and the lists of the fragments inside it: it is the
former, followed by the latter in order, and has every record in the own list of the fragment or of one inside
it, directly or not, and no record twice. -/
structure Gathers (b : Blueprint) (own all : Fragment → List EscapeRecord) (id : NodeId) (f : Fragment) : Prop where
  listed : ∃ inner : List Fragment, f.nested.map b.fragments.get? = inner.map some ∧
    all f = own f ++ inner.flatMap all
  mem_iff : ∀ record, record ∈ all f ↔
    ∃ key g, Relation.ReflTransGen b.Holds id key ∧ b.fragments.get? key = some g ∧ record ∈ own g
  once : ((all f).map (·.id)).Nodup

/-- The escapes of fragments inside are added up already. -/
theorem collectInto_eq (hids : t.ids.Nodup) (hb : Blueprint.ofTerm t types = .ok b)
    (hf : b.fragments.get? id = some f) : Survey.collectInto b.fragments f = f := by
  rcases ofTerm_eq_ok hb with ⟨linked, hlink, -, hfragments, -⟩
  have horder : linked.order = t.survey.order := by rw [Survey.link_eq_ok hlink]
  have hnodup := nodup_order hids hb
  have hid : id ∈ t.survey.order := by
    rcases (fragment_iff hids hb).1 ⟨f, hf, rfl⟩ with ⟨path, site, label, snippet, body, hnode, hid, hhead⟩
    have hstarts := (Term.mem_fragments_openings t.id).2 ⟨path, site, label, snippet, body, hnode, hid, hhead⟩
    rw [(t.heads_survey (escapesInside_of_ofTerm hb)).order, List.mem_reverse]
    exact List.mem_map_of_mem hstarts
  have hnested : ∀ g, linked.fragments.get? id = some g → ∀ inner ∈ g.nested, [inner, id].Sublist t.survey.order := by
    intro g hg inner hinner
    have hsame := congrArg (Table.get? · id) (Survey.map_collect (fun _ f => f.nested)
      (fun _ _ _ _ => rfl) linked)
    simp only [Table.get?_map, ← hfragments, hf, hg, Option.map_some, Option.some.injEq] at hsame
    exact Holds.sublist hids hb ⟨f, hf, hsame ▸ hinner⟩
  rw [← horder] at hnodup hid hnested
  have hcollect := Survey.get?_collect hnodup hid hnested
  rw [← hfragments, hf] at hcollect
  rcases Option.map_eq_some_iff.1 hcollect.symm with ⟨g, -, rfl⟩
  rfl

/-- A fragment lists no fragment twice. -/
theorem nodup_nested (hids : t.ids.Nodup) (hb : Blueprint.ofTerm t types = .ok b)
    (hf : b.fragments.get? id = some f) : f.nested.Nodup := by
  have hnodup : (b.placements.map (·.2)).Nodup :=
    ((perm_placements hids hb).map (·.2)).nodup_iff.2 (Term.grows_root hids).nodup.1
  have hpart : (f.placements id).Sublist b.placements := by
    refine List.Sublist.trans ?_ (List.sublist_append_right _ _)
    exact List.sublist_flatten_of_mem
      (List.mem_map_of_mem (f := fun e => Fragment.placements e.2 e.1) (Table.get?_eq_some_iff.1 hf))
  have hunits := (hpart.map (·.2)).nodup hnodup
  rw [Fragment.placements, List.map_map] at hunits
  exact List.Nodup.of_map _ hunits

section Gathering

variable {own all : Fragment → List EscapeRecord} {kind : EscapeKind} (hids : t.ids.Nodup)
  (hb : Blueprint.ofTerm t types = .ok b)
  (hown : ∀ f holder, ((own f).map (Listing.mk holder kind)).Sublist (f.listings holder))
  (hall : ∀ fragments f, all (Survey.collectInto fragments f) =
    own f ++ (f.nested.filterMap fragments.get?).flatMap all)

include hids hb hown in
/-- The records in own lists of one kind are those of different escapes. -/
theorem own_unique {id' : NodeId} {f' : Fragment} {record record' : EscapeRecord}
    (hf : b.fragments.get? id = some f) (hf' : b.fragments.get? id' = some f') (hrecord : record ∈ own f)
    (hrecord' : record' ∈ own f') (hsame : record.id = record'.id) : id = id' := by
  have hnodup : (b.listings.map (·.record.id)).Nodup := List.pairwise_map.2 (pairwise_listings hids hb)
  have hmem : ∀ {id f record}, b.fragments.get? id = some f → record ∈ own f →
      Listing.mk id kind record ∈ b.listings := by
    intro id f record hf hrecord
    rw [listings, listingsOf_eq, Table.mem_contents]
    exact ⟨id, f, hf, (hown f id).subset (List.mem_map_of_mem hrecord)⟩
  have heq := List.inj_on_of_nodup_map hnodup (hmem hf hrecord) (hmem hf' hrecord') hsame
  exact congrArg Listing.holder heq

include hids hb hown in
theorem own_nodup (hf : b.fragments.get? id = some f) : ((own f).map (·.id)).Nodup := by
  have hnodup : (b.listings.map (·.record.id)).Nodup := List.pairwise_map.2 (pairwise_listings hids hb)
  have hpart : (f.listings id).Sublist b.listings := List.sublist_flatten_of_mem
    (List.mem_map_of_mem (f := fun e => Fragment.listings e.2 e.1) (Table.get?_eq_some_iff.1 hf))
  have hrecords := (((hown f id).trans hpart).map (·.record.id)).nodup hnodup
  rw [List.map_map] at hrecords
  exact hrecords

include hids hb hall in
theorem sum_eq (hf : b.fragments.get? id = some f) :
    all f = own f ++ (f.nested.filterMap b.fragments.get?).flatMap all := by
  rw [← hall, collectInto_eq hids hb hf]

include hids hb hall in
/-- What is added up comes from the fragment itself or from one inside it. -/
theorem mem_sum_iff (record : EscapeRecord) : ∀ id f, b.fragments.get? id = some f → (record ∈ all f ↔
    ∃ key g, Relation.ReflTransGen b.Holds id key ∧ b.fragments.get? key = some g ∧ record ∈ own g) := by
  refine inside_out hids hb fun id f hf ih => ?_
  rw [sum_eq hids hb hall hf, List.mem_append, List.mem_flatMap]
  constructor
  · rintro (hrecord | ⟨g, hg, hrecord⟩)
    · exact ⟨id, f, .refl, hf, hrecord⟩
    · rcases List.mem_filterMap.1 hg with ⟨inner, hinner, hg⟩
      rcases (ih inner hinner g hg).1 hrecord with ⟨key, owner, hpath, howner⟩
      have hstep : b.Holds id inner := ⟨f, hf, hinner⟩
      exact ⟨key, owner, hpath.head hstep, howner⟩
  · rintro ⟨key, owner, hpath, hkey, hrecord⟩
    rcases hpath.cases_head with rfl | ⟨inner, hstep, hpath⟩
    · rw [hf] at hkey
      exact .inl (Option.some.inj hkey ▸ hrecord)
    · rcases hstep.record hids hb with ⟨g, hg⟩
      rcases hstep with ⟨f', hf', hinner⟩
      rw [hf] at hf'
      rw [← Option.some.inj hf'] at hinner
      have hsum := (ih inner hinner g hg).2 ⟨key, owner, hpath, hkey, hrecord⟩
      exact .inr ⟨g, List.mem_filterMap.2 ⟨inner, hinner, hg⟩, hsum⟩

include hids hb hown hall in
/-- What is added up has no record twice. -/
theorem nodup_sum : ∀ id f, b.fragments.get? id = some f → ((all f).map (·.id)).Nodup := by
  refine inside_out hids hb fun id f hf ih => ?_
  have hinside : ∀ inner ∈ f.nested, b.Holds id inner := fun inner hinner => ⟨f, hf, hinner⟩
  have hmem := mem_sum_iff hids hb hall
  rw [sum_eq hids hb hall hf, List.map_append, List.map_flatMap, List.nodup_append]
  refine ⟨own_nodup hids hb hown hf, List.nodup_flatMap.2 ⟨fun g hg => ?_, ?_⟩, ?_⟩
  · rcases List.mem_filterMap.1 hg with ⟨inner, hinner, hg⟩
    exact ih inner hinner g hg
  · -- two fragments directly inside have nothing inside both
    refine List.Pairwise.filterMap _ (fun inner inner' hpair g hg g' hg' => ?_)
      (List.Pairwise.and_mem.1 (nodup_nested hids hb hf))
    obtain ⟨hinner, hinner', hne⟩ := hpair
    intro a ha ha'
    rcases List.mem_map.1 ha with ⟨record, hrecord, rfl⟩
    rcases List.mem_map.1 ha' with ⟨record', hrecord', hsame⟩
    rcases (hmem _ inner g hg).1 hrecord with ⟨key, owner, hpath, hkey, hrecord⟩
    rcases (hmem _ inner' g' hg').1 hrecord' with ⟨key', owner', hpath', hkey', hrecord'⟩
    have heq := own_unique hids hb hown hkey hkey' hrecord hrecord' hsame.symm
    rw [← heq] at hpath'
    exact hne (inside_one hids hb (hinside inner hinner) (hinside inner' hinner') hpath hpath')
  · -- and the fragment itself is not inside those
    intro a ha a' ha' hsame
    rcases List.mem_map.1 ha with ⟨record, hrecord, rfl⟩
    rcases List.mem_flatMap.1 ha' with ⟨g, hg, ha'⟩
    rcases List.mem_map.1 ha' with ⟨record', hrecord', rfl⟩
    rcases List.mem_filterMap.1 hg with ⟨inner, hinner, hg⟩
    rcases (hmem _ inner g hg).1 hrecord' with ⟨key, owner, hpath, hkey, hrecord'⟩
    rw [← own_unique hids hb hown hf hkey hrecord hrecord' hsame] at hpath
    exact not_inside_itself hids hb (hinside inner hinner) hpath

include hids hb hown hall in
/-- The list of escapes of a fragment is its own ones, and those of the fragments inside it. -/
theorem gathers (hf : b.fragments.get? id = some f) : b.Gathers own all id f where
  listed := by
    refine ⟨f.nested.filterMap b.fragments.get?, ?_, sum_eq hids hb hall hf⟩
    rw [List.map_filterMap]
    have hrecords : ∀ inner ∈ f.nested, ∃ g, b.fragments.get? inner = some g :=
      fun inner hinner => Holds.record hids hb ⟨f, hf, hinner⟩
    rw [← List.filterMap_eq_map]
    refine List.filterMap_congr fun inner hinner => ?_
    rcases hrecords inner hinner with ⟨g, hg⟩
    simp [hg]
  mem_iff record := mem_sum_iff hids hb hall record id f hf
  once := nodup_sum hids hb hown hall id f hf

end Gathering

/-! ## The forest -/

/-- Going up from a fragment ends at one that has none around it. -/
theorem climb_ends (hids : t.ids.Nodup) (hb : Blueprint.ofTerm t types = .ok b)
    (hf : b.fragments.get? id = some f) : ∃ n top g, climb b.fragmentAbove? n id = some top ∧
      b.fragments.get? top = some g ∧ g.parent = none := by
  -- each step goes further back in the order of adding up
  induction hrest : t.survey.order.length - t.survey.order.idxOf id using Nat.strongRecOn generalizing id f with
  | _ rest ih =>
    cases hparent : f.parent with
    | none => exact ⟨0, id, f, rfl, hf, hparent⟩
    | some outer =>
      have hholds := (holds_iff_parent hids hb hf).2 hparent
      have hlt := hholds.idxOf_lt hids hb
      have hle := List.idxOf_le_length (a := outer) (l := t.survey.order)
      rcases hholds with ⟨g, hg, -⟩
      rcases ih (t.survey.order.length - t.survey.order.idxOf outer) (by omega) hg rfl with
        ⟨n, top, last, hclimb, hlast⟩
      refine ⟨n + 1, top, last, ?_, hlast⟩
      rw [climb, fragmentAbove?, hf, Option.bind_some, hparent]
      exact hclimb

/-- All units together list each fragment once, and list nothing else. -/
theorem perm_quotes (hids : t.ids.Nodup) (hb : Blueprint.ofTerm t types = .ok b) :
    (b.main.quotes ++ b.procedures.values.flatMap (·.quotes) ++ b.fragments.values.flatMap (·.nested)).Perm
      b.fragments.keys := by
  have hlisted : b.placements.filterMap (fun x => x.2.fragment?) =
      b.main.quotes ++ b.procedures.values.flatMap (·.quotes) ++ b.fragments.values.flatMap (·.nested) := by
    have hprocedure : ∀ (r : Procedure) id, (r.placements id).filterMap (fun x => x.2.fragment?) = r.quotes := by
      intro r id
      simp [Procedure.placements, List.filterMap_map, Home.fragment?]
    have hfragment : ∀ (f : Fragment) id, (f.placements id).filterMap (fun x => x.2.fragment?) = f.nested := by
      intro f id
      simp [Fragment.placements, List.filterMap_map, Home.fragment?]
    simp only [placements, Table.contents, Table.values, List.filterMap_append, List.filterMap_flatMap, hprocedure,
      hfragment, List.flatMap_map]
  rw [← hlisted]
  refine ((perm_placements hids hb).filterMap _).trans ?_
  have hkeys : (t.placements t.id []).filterMap (fun x => x.2.fragment?) =
      ((t.openings t.id []).filterMap Finding.fragment?).map (·.1) := by
    rw [Term.fragments_openings, List.filterMap_map]
    rfl
  rw [hkeys, List.perm_ext_iff_of_nodup (Term.nodup_openings hids).1 b.fragments.nodup_keys]
  intro id
  rw [List.mem_map, Table.mem_keys]
  constructor
  · rintro ⟨⟨id, head⟩, hstarts, rfl⟩
    rcases (fragment_iff hids hb).2 ((Term.mem_fragments_openings t.id).1 hstarts) with ⟨f, hf, -⟩
    exact ⟨f, hf⟩
  · rintro ⟨f, hf⟩
    have hstarts := (Term.mem_fragments_openings t.id).2 ((fragment_iff hids hb).1 ⟨f, hf, rfl⟩)
    exact ⟨_, hstarts, rfl⟩

end Blueprint

/-- **Fragments form a forest, and lists of escapes add up along it.** Let a program with different node
identities be split into units. Then the fragments are those of its quotes, under their identities and with
their bodies. All units together list each fragment exactly once as directly inside them. A fragment is listed
by another one if it names that as the one around it, and going up in this way ends. The persist escapes of a
fragment are its own ones followed by those of the fragments that it lists, so that they are the own ones of
it and of all fragments inside it, each once; and so are its splice escapes. -/
theorem fragments_form_forest (t : Term) (types : TypeTable) (b : Blueprint) (hids : t.ids.Nodup)
    (hb : Blueprint.ofTerm t types = .ok b) :
    (∀ id body, (∃ f, b.fragments.get? id = some f ∧ f.body = body) ↔
      ∃ site label snippet, .quote site label snippet body ∈ t.nodes ∧ site.id = id) ∧
    (b.main.quotes ++ b.procedures.values.flatMap (·.quotes) ++ b.fragments.values.flatMap (·.nested)).Perm
      b.fragments.keys ∧
    ∀ id f, b.fragments.get? id = some f → f.id = id ∧
      (∀ outer, b.Holds outer id ↔ f.parent = some outer) ∧
      (∃ n top g, climb b.fragmentAbove? n id = some top ∧ b.fragments.get? top = some g ∧ g.parent = none) ∧
      b.Gathers (·.ownPersist) (·.persist) id f ∧ b.Gathers (·.ownSplice) (·.splice) id f := by
  refine ⟨fun id body => ?_, Blueprint.perm_quotes hids hb, fun id f hf => ⟨?_, fun outer => ?_, ?_, ?_, ?_⟩⟩
  · constructor
    · rintro ⟨f, hf, rfl⟩
      rcases (Blueprint.fragment_iff hids hb).1 ⟨f, hf, rfl⟩ with
        ⟨path, site, label, snippet, body, hnode, hid, hhead⟩
      have hbody : f.body = body := congrArg Fragment.body hhead
      refine ⟨site, label, snippet, ?_, hid⟩
      rw [hbody, ← t.map_snd_lineages []]
      exact List.mem_map_of_mem hnode
    · rintro ⟨site, label, snippet, hnode, hid⟩
      rw [← t.map_snd_lineages []] at hnode
      rcases List.mem_map.1 hnode with ⟨⟨path, node⟩, hnode, rfl⟩
      rcases (Blueprint.fragment_iff hids hb).2 ⟨path, site, label, snippet, body, hnode, hid, rfl⟩ with
        ⟨f, hf, hhead⟩
      exact ⟨f, hf, congrArg Fragment.body hhead⟩
  · -- a key is the identity of its record
    rcases (Blueprint.fragment_iff hids hb).1 ⟨f, hf, rfl⟩ with ⟨path, site, label, snippet, body, -, -, hhead⟩
    exact congrArg Fragment.id hhead
  · exact Blueprint.holds_iff_parent hids hb hf
  · exact Blueprint.climb_ends hids hb hf
  · -- each kind of escape is gathered in a list of its own
    have hown : ∀ (g : Fragment) holder,
        (g.ownPersist.map (Listing.mk holder .persist)).Sublist (g.listings holder) := by
      intro g holder
      rw [Fragment.listings, List.append_assoc]
      exact List.sublist_append_left _ _
    exact Blueprint.gathers hids hb hown (fun _ _ => rfl) hf
  · have hown : ∀ (g : Fragment) holder,
        (g.ownSplice.map (Listing.mk holder .splice)).Sublist (g.listings holder) := by
      intro g holder
      rw [Fragment.listings]
      exact (List.sublist_append_right _ _).trans (List.sublist_append_left _ _)
    exact Blueprint.gathers hids hb hown (fun _ _ => rfl) hf

/-- `< < 3 + %1 >; < < %2 > > >`: the outermost fragment has two others directly inside, and one of these has
a third. -/
def nestedQuotes : Term :=
  .quote ⟨0, {}⟩ none false (.seq ⟨1, {}⟩
    (.quote ⟨2, {}⟩ none false (.binary ⟨3, {}⟩ .add (.literal ⟨4, {}⟩ (.int 3))
      (.escape ⟨5, {}⟩ .persist (.literal ⟨6, {}⟩ (.int 1)))))
    (.quote ⟨7, {}⟩ none false (.quote ⟨8, {}⟩ none false
      (.escape ⟨9, {}⟩ .persist (.literal ⟨10, {}⟩ (.int 2))))))

/-- The outermost fragment gathers the persist escapes of the fragments inside it. -/
theorem fragments_form_forest_nested : ∃ b f,
    nestedQuotes.ids.Nodup ∧ Blueprint.ofTerm nestedQuotes .empty = .ok b ∧ b.fragments.get? 0 = some f ∧
      f.nested = [2, 7] ∧ f.persist.map (·.id) = [5, 9] ∧ b.Gathers (·.ownPersist) (·.persist) 0 f := by
  obtain ⟨b, f, hb, hf, hnested, hpersist⟩ : ∃ b f, Blueprint.ofTerm nestedQuotes .empty = .ok b ∧
      b.fragments.get? 0 = some f ∧ f.nested = [2, 7] ∧ f.persist.map (·.id) = [5, 9] :=
    ⟨_, _, rfl, rfl, rfl, rfl⟩
  have hids : nestedQuotes.ids.Nodup := by decide
  obtain ⟨-, -, hforest⟩ := fragments_form_forest nestedQuotes .empty b hids hb
  obtain ⟨-, -, -, hpersists, -⟩ := hforest 0 f hf
  exact ⟨b, f, hids, hb, hf, hnested, hpersist, hpersists⟩

end Multistage
