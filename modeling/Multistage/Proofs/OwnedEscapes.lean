import Multistage.Proofs.Escapes
import Multistage.Proofs.OwnHoles

/-!
# Who owns an escape

The survey lists every escape with one fragment, as a persist, splice or snippet escape. On the side of the
program, `Term.lineages` gives each node with the nodes around it, and `openQuotes` the quotes on such a
path that are still open at its end: a quote opens itself, and an escape closes the innermost open one. An
escape belongs to the innermost quote that is open around it.

One finding of the walk adds the record that goes with it, and nothing else (`Survey.listings_note`), as long
as fragments are opened before they are given records and are opened once. This holds of all that the walk
finds in a program with different identities (`Term.orderly_outline`).

Main statement: `escapes_partitioned`.
-/

namespace Multistage

/-! ## Nodes and the quotes that are open at them -/

/-- The quotes that are open inside a node, innermost first, given those that are open around it. -/
def Term.openInside (quotes : List NodeId) : Term → List NodeId
  | .quote site .. => site.id :: quotes
  | .escape .. => quotes.tail
  | _ => quotes

/-- The quotes that are still open at the end of a path from the root. -/
def openQuotes (path : List Term) : List NodeId := path.foldl (fun quotes node => node.openInside quotes) []

/-- All nodes of a term, each with the nodes around it, outermost first. -/
def Term.lineages : Term → (above : List Term) → List (List Term × Term) :=
  fold fun t below above => (above, t) :: below.flatMap fun nodes => nodes (above ++ [t])

theorem openQuotes_concat (path : List Term) (t : Term) :
    openQuotes (path ++ [t]) = t.openInside (openQuotes path) :=
  List.foldl_concat ..

theorem Term.lineages_eq (t : Term) (above : List Term) :
    t.lineages above = (above, t) :: t.children.flatMap fun child => child.lineages (above ++ [t]) := by
  rw [lineages, fold_eq, List.flatMap_map]

theorem Term.map_snd_lineages (t : Term) (above : List Term) : (t.lineages above).map (·.2) = t.nodes := by
  induction t using induct_children generalizing above with
  | step t ih =>
    rw [lineages_eq, nodes_eq, List.map_cons, List.map_flatMap, List.flatMap_def, List.flatMap_def]
    exact congrArg (t :: List.flatten ·) (List.map_congr_left fun child hchild => ih child hchild _)

/-! ## Records and where they stand -/

/-- A record of an escape, with the fragment that holds it and the kind of the list that it stands in. -/
structure Listing where
  holder : NodeId
  kind : EscapeKind
  record : EscapeRecord

/-- The records that a fragment lists as its own. -/
def Fragment.listings (f : Fragment) (holder : NodeId) : List Listing :=
  f.ownPersist.map (⟨holder, .persist, ·⟩) ++ f.ownSplice.map (⟨holder, .splice, ·⟩) ++
    f.ownSnippet.map (⟨holder, .snippet, ·⟩)

/-- The records that fragments list as their own. -/
def listingsOf (entries : List (NodeId × Fragment)) : List Listing := entries.flatMap fun e => e.2.listings e.1

/-- All records that the fragments of a program list as their own. -/
def Blueprint.listings (b : Blueprint) : List Listing := listingsOf b.fragments.entries

/-- The record that there ought to be of an escape at the end of a path: in the fragment of the innermost open
quote. Other nodes have none. -/
def Term.listing? (path : List Term) : Term → Option (Option Listing)
  | .escape site kind body =>
    some ((openQuotes path).head?.map fun owner => ⟨owner, kind, ⟨site.id, body, owner⟩⟩)
  | _ => none

section Tables

variable {fragments : Table Fragment} {id : NodeId} {f : Fragment} {g : Fragment → Fragment} {l : Listing}

theorem listingsOf_eq (fragments : Table Fragment) :
    listingsOf fragments.entries = fragments.contents fun holder f => f.listings holder := rfl

/-- A change that leaves the own records of fragments alone. -/
theorem listings_modify (key : NodeId) (hg : ∀ f holder, (g f).listings holder = f.listings holder) :
    listingsOf (fragments.modify key g).entries = listingsOf fragments.entries := by
  rw [listingsOf_eq, listingsOf_eq]
  exact Table.contents_modify _ key fun holder f => hg f holder

/-- A new fragment starts without records. -/
theorem listings_insert (hnew : fragments.get? id = none) (hf : f.listings id = []) :
    (listingsOf (fragments.insert id f).entries).Perm (listingsOf fragments.entries) := by
  have hperm := Table.perm_contents_insert (fun holder f => f.listings holder) (k := id) (v := f)
    (t := fragments) (by simp [hnew])
  rw [hf, List.nil_append] at hperm
  exact hperm

/-- A record that is added to one of the fragments is added to all records. -/
theorem listings_add (hid : fragments.get? id ≠ none)
    (hg : ∀ f, ((g f).listings id).Perm (l :: f.listings id)) :
    (listingsOf (fragments.modify id g).entries).Perm (l :: listingsOf fragments.entries) := by
  rw [listingsOf_eq, listingsOf_eq, ← List.singleton_append]
  exact Table.perm_contents_modify _ [l] hid hg

end Tables

/-! ## What the walk adds -/

/-- The record that goes with a mark. -/
def Mark.listing? : Mark → Option Listing
  | .opens _ => none
  | .escape kind record => some ⟨record.owner, kind, record⟩

/-- The fragment that a mark opens. -/
def Mark.opened? : Mark → Option NodeId
  | .opens f => some f.id
  | .escape .. => none

/-- Fragments are opened once, and before they are given records; some are open from the start. -/
def Orderly : (known : List NodeId) → List Mark → Prop
  | _, [] => True
  | known, .opens f :: rest => f.id ∉ known ∧ f.listings f.id = [] ∧ Orderly (known ++ [f.id]) rest
  | known, .escape _ record :: rest => record.owner ∈ known ∧ Orderly known rest

/-- What comes later is in order if it is so after what has been opened before. -/
theorem orderly_append {known : List NodeId} {xs ys : List Mark} :
    Orderly known (xs ++ ys) ↔ Orderly known xs ∧ Orderly (known ++ xs.filterMap Mark.opened?) ys := by
  induction xs generalizing known with
  | nil => simp [Orderly]
  | cons x xs ih =>
    cases x with
    | opens f => simp [Orderly, ih, Mark.opened?, and_assoc]
    | escape kind record =>
      rw [List.cons_append, List.filterMap_cons_none rfl, Orderly, Orderly, ih, and_assoc]

namespace Survey

variable {s : Survey} {x : Finding} {id : NodeId}

/-- Fragments are only ever added, where the walk opens them. -/
theorem get?_note_eq_none_iff : (s.note x).fragments.get? id = none ↔
    s.fragments.get? id = none ∧ (x.mark?.bind Mark.opened?) ≠ some id := by
  have hchange : ∀ (s : Survey) (key : NodeId) (g : Fragment → Fragment),
      (s.changeFragment key g).fragments.get? id = none ↔ s.fragments.get? id = none := by
    intro s key g
    rw [changeFragment, Table.get?_modify]
    split <;> simp
  cases x with
  | definition home d => cases home <;> simp [note, define, Finding.mark?, hchange, changeProcedure]
  | use home user definition =>
    cases definition with
    | none => simp [note, Finding.mark?]
    | some definition =>
      simp only [note, use]
      split
      · simp [Finding.mark?]
      · cases home <;> simp [Finding.mark?, hchange, changeProcedure]
  | snippet | procedure => simp [note, addSnippet, openProcedure, changeProcedure, Finding.mark?]
  | escape kind record => simp [note, addEscape, hchange, Finding.mark?, Mark.opened?]
  | fragment position f =>
    simp only [note, openFragment, Finding.mark?, Option.bind_some, Mark.opened?]
    have hinsert : (s.fragments.insert f.id f).get? id = none ↔
        s.fragments.get? id = none ∧ some f.id ≠ some id := by
      rw [Table.get?_insert]
      by_cases hid : f.id = id <;> simp [hid]
    cases position.home with
    | procedure p => exact hinsert
    | fragment key => exact (hchange _ key _).trans hinsert

/-- What a finding does to the records of all fragments. -/
theorem listings_note {known : List NodeId} (hknown : ∀ id, s.fragments.get? id = none ↔ id ∉ known)
    (horder : Orderly known x.mark?.toList) :
    (listingsOf (s.note x).fragments.entries).Perm
      ((x.mark?.bind Mark.listing?).toList ++ listingsOf s.fragments.entries) := by
  cases x with
  | definition home d =>
    -- a name is entered in the record of a unit, whose escapes stay
    cases home with
    | procedure p => exact .refl _
    | fragment key => exact .of_eq (listings_modify key fun _ _ => rfl)
  | use home user definition =>
    cases definition with
    | none => exact .refl _
    | some definition =>
      simp only [note, use]
      split
      · exact .refl _
      · cases home with
        | procedure p => exact .refl _
        | fragment key => exact .of_eq (listings_modify key fun _ _ => rfl)
  | snippet | procedure => exact .refl _
  | fragment position f =>
    -- the new record is empty, and the one around it gets a nested fragment, which is no escape
    have hinsert := listings_insert ((hknown f.id).2 horder.1) horder.2.1
    simp only [note, openFragment]
    cases position.home with
    | procedure p => exact hinsert
    | fragment key =>
      show (listingsOf (Table.modify (s.fragments.insert f.id f) key fun r =>
        { r with nested := r.nested ++ [f.id] }).entries).Perm (listingsOf s.fragments.entries)
      rw [listings_modify key]
      · exact hinsert
      · exact fun _ _ => rfl
  | escape kind record =>
    -- the owner has a record by now, or the escape would be lost
    have howner : s.fragments.get? record.owner ≠ none := fun hnone =>
      (hknown record.owner).1 hnone horder.1
    refine listings_add howner fun f => ?_
    -- the record stands last in its list, and the lists of other kinds stay
    cases kind with
    | persist => simp [Fragment.listings, List.perm_middle]
    | splice =>
      simp only [Fragment.listings, List.map_append, List.map_singleton, List.append_assoc]
      exact (List.perm_middle.append_left _).trans List.perm_middle
    | snippet =>
      simp only [Fragment.listings, List.map_append, List.map_singleton, ← List.append_assoc]
      exact List.perm_append_singleton _ _

/-- What the walk finds in order adds the records of the escapes that it meets. -/
theorem listings_noteAll {known : List NodeId} {xs : List Finding}
    (hknown : ∀ id, s.fragments.get? id = none ↔ id ∉ known)
    (horder : Orderly known (xs.filterMap Finding.mark?)) :
    (listingsOf (s.noteAll xs).fragments.entries).Perm
      ((xs.filterMap Finding.mark?).filterMap Mark.listing? ++ listingsOf s.fragments.entries) := by
  induction xs generalizing s known with
  | nil => exact .refl _
  | cons x rest ih =>
    rw [filterMap_cons_toList, orderly_append] at horder
    have hknown' : ∀ id, (s.note x).fragments.get? id = none ↔
        id ∉ known ++ x.mark?.toList.filterMap Mark.opened? := by
      intro id
      rw [get?_note_eq_none_iff, hknown, List.mem_append, not_or]
      refine and_congr_right fun _ => ?_
      cases x.mark? with
      | none => simp
      | some mark => simp [eq_comm]
    have hlisting : x.mark?.toList.filterMap Mark.listing? = (x.mark?.bind Mark.listing?).toList := by
      cases x.mark? with
      | none => rfl
      | some mark =>
        rw [Option.toList_some, List.filterMap_cons, Option.bind_some]
        cases mark.listing? <;> rfl
    rw [filterMap_cons_toList, List.filterMap_append, hlisting]
    refine (ih hknown' horder.2).trans ?_
    refine ((listings_note hknown horder.1).append_left _).trans ?_
    rw [List.append_assoc]
    exact (List.perm_append_comm_assoc _ _ _)

end Survey

/-! ## The walk is orderly -/

namespace Term

variable {t : Term} {known quotes : List NodeId}

/-- Fragments are opened for nodes of the term only. -/
theorem opened_outline {id : NodeId} (h : id ∈ (t.outline quotes).filterMap Mark.opened?) : id ∈ t.ids := by
  rcases List.mem_filterMap.1 h with ⟨mark, hmark, hid⟩
  cases mark with
  | escape => cases hid
  | opens f =>
    cases hid
    rcases quote_of_opens hmark with ⟨site, label, snippet, parent, hnode, hf⟩
    rw [hf]
    exact List.mem_map_of_mem hnode

/-- The parts of a term are met one after another. -/
theorem orderly_outlines {ts : List Term} (hids : (ts.flatMap ids).Nodup)
    (hnew : ∀ id ∈ ts.flatMap ids, id ∉ known) (hquotes : quotes ⊆ known)
    (ih : ∀ t ∈ ts, ∀ {known quotes}, t.ids.Nodup → (∀ id ∈ t.ids, id ∉ known) → quotes ⊆ known →
      Orderly known (t.outline quotes)) :
    Orderly known (ts.flatMap fun t => t.outline quotes) := by
  induction ts generalizing known with
  | nil => trivial
  | cons t rest ihrest =>
    rw [List.flatMap_cons] at hids hnew ⊢
    rw [List.forall_mem_append] at hnew
    rw [orderly_append]
    rcases List.nodup_append.1 hids with ⟨hhead, htail, hdisjoint⟩
    refine ⟨ih t List.mem_cons_self hhead hnew.1 hquotes, ?_⟩
    refine ihrest htail (fun id hid hmem => ?_) (List.Subset.trans hquotes (List.subset_append_left _ _))
      fun u hu => ih u (List.mem_cons_of_mem _ hu)
    rcases List.mem_append.1 hmem with hmem | hmem
    · exact hnew.2 id hid hmem
    · exact hdisjoint id (opened_outline hmem) id hid rfl

/-- What the walk meets in a term with different identities, none of which is known, is in order if the
fragments of the open quotes are known. -/
theorem orderly_outline (hids : t.ids.Nodup) (hnew : ∀ id ∈ t.ids, id ∉ known) (hquotes : quotes ⊆ known) :
    Orderly known (t.outline quotes) := by
  induction t using induct_children generalizing known quotes with
  | step t ih =>
    rw [ids_eq] at hids hnew
    rw [List.nodup_cons] at hids
    rw [List.forall_mem_cons] at hnew
    rw [outline_eq, orderly_append]
    constructor
    · -- the node itself: a quote opens a new fragment, and an escape belongs to an open one
      unfold markAt
      split
      · exact ⟨hnew.1, rfl, trivial⟩
      · next owner _ => exact ⟨hquotes List.mem_cons_self, trivial⟩
      · trivial
    · split
      · trivial
      · next inner hinner =>
        -- its parts, after what the node has opened
        refine orderly_outlines hids.2 (fun id hid hmem => ?_) ?_ fun child hchild => ih child hchild
        · rcases List.mem_append.1 hmem with hmem | hmem
          · exact hnew.2 id hid hmem
          · -- the only fragment that the node itself can open is its own
            have hself : id = t.id := by
              unfold markAt at hmem
              split at hmem
              · exact List.mem_singleton.1 hmem
              · cases hmem
              · cases hmem
            exact hids.1 (hself ▸ hid)
        · -- the quotes around the parts are known: those before, or one more, or one less
          unfold openBelow at hinner
          split at hinner
          · cases hinner
            exact List.cons_subset.2 ⟨by simp [markAt, Mark.opened?],
              List.Subset.trans hquotes (List.subset_append_left _ _)⟩
          · cases hinner
          · cases hinner
            exact List.Subset.trans (List.Subset.trans (List.subset_cons_self _ _) hquotes)
              (List.subset_append_left _ _)
          · cases hinner
            exact List.Subset.trans hquotes (List.subset_append_left _ _)

end Term

/-- A walk through several terms walks through each of them. -/
theorem Surveying.walkAll_member {ts : List Term} {t : Term} {position : Position} {scope : Scope NodeId}
    {s s' : Survey} (h : (walkAll ts position scope).run s = .ok ((), s')) (ht : t ∈ ts) :
    ∃ scope' s₁ s₂, (walk t position scope).run s₁ = .ok (scope', s₂) := by
  induction ts generalizing s with
  | nil => cases ht
  | cons head rest ih =>
    rw [walkAll] at h
    rcases run_bind_eq_ok.1 h with ⟨scope', s₁, hhead, hrest⟩
    rcases List.mem_cons.1 ht with rfl | ht
    · exact ⟨scope', s, s₁, hhead⟩
    · exact ih hrest ht

/-- A walk that succeeds meets each escape under an open quote. -/
theorem Surveying.escapesInside {t : Term} {position : Position} {scope scope' : Scope NodeId} {s s' : Survey}
    (h : (walk t position scope).run s = .ok (scope', s')) : t.EscapesInside position.fragments.length := by
  -- for all but quotes and escapes the parts are walked under as many quotes as the node
  induction t generalizing position scope scope' s s' with
  | literal | lookup | host | held => exact Term.escapesInside_leaf (by simp [Term.tag]) rfl
  | seq site lhs rhs ihl ihr =>
    rw [walk] at h
    rcases run_bind_eq_ok.1 h with ⟨middle, s₁, hl, hr⟩
    refine Term.escapesInside_parts (by simp [Term.tag]) (List.forall_mem_cons.2 ⟨ihl hl, ?_⟩)
    exact List.forall_mem_singleton.2 (ihr hr)
  | binary site op lhs rhs ihl ihr =>
    rw [walk] at h
    rcases run_bind_eq_ok.1 h with ⟨middle, s₁, hl, h₁⟩
    rcases run_bind_eq_ok.1 h₁ with ⟨_, s₂, hr, -⟩
    refine Term.escapesInside_parts (by simp [Term.tag]) (List.forall_mem_cons.2 ⟨ihl hl, ?_⟩)
    exact List.forall_mem_singleton.2 (ihr hr)
  | define site name value ih | assign site name value ih | unary site op value ih =>
    rw [walk] at h
    rcases run_bind_eq_ok.1 h with ⟨_, s₁, hv, -⟩
    exact Term.escapesInside_parts (by simp [Term.tag]) (List.forall_mem_singleton.2 (ih hv))
  | run site body ih =>
    rw [walk] at h
    exact Term.escapesInside_parts (by simp [Term.tag]) (List.forall_mem_singleton.2 (ih h))
  | quote site label snippet body ih =>
    rw [walk] at h
    -- one more fragment is open inside
    rcases run_bind_eq_ok.1 h with ⟨_, s₁, -, h₁⟩
    rcases run_bind_eq_ok.1 h₁ with ⟨_, s₂, hb, -⟩
    exact Term.escapesInside_parts (by simp [Term.tag]) (List.forall_mem_singleton.2 (ih hb))
  | escape site kind body ih =>
    rw [walk] at h
    -- the walk fails where there is no fragment to escape from
    cases hfragments : position.fragments with
    | nil =>
      rw [hfragments] at h
      cases h
    | cons owner outer =>
      rw [hfragments] at h
      rcases run_bind_eq_ok.1 h with ⟨_, s₁, -, h₁⟩
      rcases run_bind_eq_ok.1 h₁ with ⟨_, s₂, hb, -⟩
      refine Term.escapesInside_iff.2 ⟨fun _ => ?_, List.forall_mem_singleton.2 ?_⟩
      · rw [List.length_cons]
        omega
      · simpa [Term.levelBelow] using ih hb
  | lambda site params body ih =>
    -- inside a function as many fragments are open, whether or not it is a procedure of its own
    have hbody : ∀ {inner : Position} {s₁ : Survey}, inner.fragments = position.fragments → (do
          forIn params PUnit.unit fun param _ => do
            modify (Survey.define inner.home param.id)
            pure (ForInStep.yield PUnit.unit)
          let _ ← walk body inner (scope.extendAll (params.map fun param => (param.name, param.id)))
          pure scope : Surveying (Scope NodeId)).run s₁ = .ok (scope', s') →
        body.EscapesInside position.fragments.length := by
      intro inner s₁ hinner h₁
      rcases run_bind_eq_ok.1 h₁ with ⟨_, s₂, -, h₂⟩
      rcases run_bind_eq_ok.1 h₂ with ⟨_, s₃, hb, -⟩
      rw [← hinner]
      exact ih hb
    rw [walk] at h
    refine Term.escapesInside_parts (by simp [Term.tag]) (List.forall_mem_singleton.2 ?_)
    cases hfragments : position.fragments with
    | nil =>
      rw [hfragments] at h hbody
      refine hbody ?_ h
      rfl
    | cons owner outer =>
      rw [hfragments] at h hbody
      exact hbody hfragments h
  | call site callee args ihf iha =>
    rw [walk] at h
    rcases run_bind_eq_ok.1 h with ⟨_, s₁, hf, h₁⟩
    rcases run_bind_eq_ok.1 h₁ with ⟨_, s₂, ha, -⟩
    refine Term.escapesInside_parts (by simp [Term.tag]) (List.forall_mem_cons.2 ⟨ihf hf, fun arg harg => ?_⟩)
    -- each argument is walked at the position of the call, whatever the survey is by then
    rcases walkAll_member ha harg with ⟨scope₁, s₃, s₄, hwalk⟩
    exact iha arg harg hwalk

/-! ## The escapes of a program -/

namespace Term

variable {t : Term}

/-- If escapes stand inside quotes, the quotes that are open around the parts of a node are as many as its
level says. -/
theorem openBelow_eq {quotes : List NodeId} (h : t.EscapesInside quotes.length) :
    t.openBelow quotes = some (t.openInside quotes) ∧
      ((t.openInside quotes).length : Int) = t.levelBelow quotes.length := by
  cases t with
  | escape site kind body =>
    have hopen := (escapesInside_iff.1 h).1 rfl
    cases quotes with
    | nil => simp at hopen
    | cons owner outer => simp [openBelow, openInside, levelBelow]
  | quote site label snippet body => exact ⟨rfl, Int.natCast_succ _⟩
  | _ => exact ⟨rfl, rfl⟩

/-- What the walk meets of the escapes of a term are the records that there ought to be of them. -/
theorem listings_outline {above : List Term} (h : t.EscapesInside (openQuotes above).length) :
    ((t.outline (openQuotes above)).filterMap Mark.listing?).map some =
      (t.lineages above).filterMap fun e => e.2.listing? e.1 := by
  induction t using induct_children generalizing above with
  | step t ih =>
    rcases openBelow_eq h with ⟨hopen, hlength⟩
    have hself : ((t.markAt (openQuotes above)).filterMap Mark.listing?).map some =
        (t.listing? above).toList := by
      cases t with
      | escape site kind body =>
        cases hquotes : openQuotes above with
        | nil =>
          rw [hquotes] at hopen
          cases hopen
        | cons owner outer => simp [markAt, listing?, hquotes, Mark.listing?]
      | _ => rfl
    have hparts : ∀ child ∈ t.children,
        ((child.outline (t.openInside (openQuotes above))).filterMap Mark.listing?).map some =
          (child.lineages (above ++ [t])).filterMap fun e => e.2.listing? e.1 := by
      intro child hchild
      rw [← openQuotes_concat]
      refine ih child hchild ?_
      rw [openQuotes_concat, hlength]
      exact h.child hchild
    rw [outline_eq, lineages_eq, hopen, List.filterMap_append, List.map_append, hself]
    dsimp only
    rw [List.filterMap_flatMap, List.map_flatMap, List.flatMap_congr hparts, ← List.filterMap_flatMap]
    rw [List.filterMap_cons]
    dsimp only
    cases t.listing? above <;> rfl

end Term

/-- Finding out what fills the holes and adding up the escapes of nested fragments leave the records alone. -/
theorem Survey.listings_collect {s linked : Survey} (h : s.link = .ok linked) :
    listingsOf linked.collect.fragments.entries = listingsOf s.fragments.entries := by
  have hsame := congrArg (Table.contents fun _ listings => listings) (map_collect_link
    (fun holder f => f.listings holder) (fun _ _ _ => rfl) (fun _ _ _ _ => rfl) h)
  rwa [Table.contents_map, Table.contents_map] at hsame

theorem Blueprint.escapesInside_of_ofTerm {t : Term} {types : TypeTable} {b : Blueprint}
    (hb : Blueprint.ofTerm t types = .ok b) : t.EscapesInside (openQuotes []).length := by
  rcases Except.bind_eq_ok.1 hb with ⟨⟨scope, survey⟩, hwalk, -⟩
  exact Surveying.escapesInside hwalk

/-- The records that a survey lists are those that there ought to be of the escapes, each once. -/
theorem Term.perm_listings_survey {t : Term} (hids : t.ids.Nodup)
    (hinside : t.EscapesInside (openQuotes []).length) :
    ((listingsOf t.survey.fragments.entries).map some).Perm
      ((t.lineages []).filterMap fun e => e.2.listing? e.1) := by
  have hmarks : (t.findings ⟨t.id, []⟩ {}).filterMap Finding.mark? = t.outline [] := Term.marks_findings
  have horder : Orderly [] ((t.findings ⟨t.id, []⟩ {}).filterMap Finding.mark?) := by
    rw [hmarks]
    exact Term.orderly_outline hids (fun _ _ => List.not_mem_nil) (List.Subset.refl _)
  have hall : (listingsOf t.survey.fragments.entries).Perm ((t.outline []).filterMap Mark.listing?) := by
    rw [Term.survey, ← hmarks]
    refine (Survey.listings_noteAll (fun id => ?_) horder).trans ?_
    · simp
    · exact .of_eq (List.append_nil _)
  rw [← Term.listings_outline hinside]
  exact hall.map some

theorem Blueprint.listings_eq {t : Term} {types : TypeTable} {b : Blueprint}
    (hb : Blueprint.ofTerm t types = .ok b) : b.listings = listingsOf t.survey.fragments.entries := by
  rcases ofTerm_eq_ok hb with ⟨linked, hlink, -, hfragments, -⟩
  rw [listings, hfragments, Survey.listings_collect hlink]

/-- The records of all fragments of a program are those that there ought to be of its escapes, each once. -/
theorem Blueprint.perm_listings {t : Term} {types : TypeTable} {b : Blueprint} (hids : t.ids.Nodup)
    (hb : Blueprint.ofTerm t types = .ok b) :
    (b.listings.map some).Perm ((t.lineages []).filterMap fun e => e.2.listing? e.1) := by
  rw [listings_eq hb]
  exact Term.perm_listings_survey hids (escapesInside_of_ofTerm hb)

/-- A record is one of an escape, and is where it ought to be. -/
theorem Term.listing?_eq_some {path : List Term} {node : Term} {l : Listing}
    (h : node.listing? path = some (some l)) :
    ∃ site, node = .escape site l.kind l.record.body ∧ site.id = l.record.id ∧
      (openQuotes path).head? = some l.holder ∧ l.record.owner = l.holder := by
  unfold Term.listing? at h
  split at h
  · rcases Option.map_eq_some_iff.1 (Option.some.inj h) with ⟨owner, howner, rfl⟩
    exact ⟨_, rfl, rfl, howner, rfl⟩
  · cases h

/-- Different nodes have different identities, and so have the records of them. -/
theorem Term.pairwise_listings_survey {t : Term} (hids : t.ids.Nodup)
    (hinside : t.EscapesInside (openQuotes []).length) :
    (listingsOf t.survey.fragments.entries).Pairwise fun l l' => l.record.id ≠ l'.record.id := by
  let Apart (o o' : Option Listing) : Prop := ∀ l l', o = some l → o' = some l' → l.record.id ≠ l'.record.id
  have hsymm : ∀ {o o'}, Apart o o' → Apart o' o := fun h l l' hl hl' => Ne.symm (h l' l hl' hl)
  have hnodes : (t.lineages []).Pairwise fun e e' => e.2.id ≠ e'.2.id := by
    rw [Term.ids, ← t.map_snd_lineages [], List.map_map] at hids
    exact List.pairwise_map.1 hids
  have hapart : ((t.lineages []).filterMap fun e => e.2.listing? e.1).Pairwise Apart := by
    refine List.Pairwise.filterMap _ (fun e e' hne o ho o' ho' l l' hl hl' heq => hne ?_) hnodes
    subst hl hl'
    rcases Term.listing?_eq_some ho with ⟨site, hnode, hid, -⟩
    rcases Term.listing?_eq_some ho' with ⟨site', hnode', hid', -⟩
    rw [hnode, hnode']
    exact hid.trans (heq.trans hid'.symm)
  have hpairwise := ((Term.perm_listings_survey hids hinside).pairwise_iff hsymm).2 hapart
  exact (List.pairwise_map.1 hpairwise).imp fun h => h _ _ rfl rfl

theorem Blueprint.pairwise_listings {t : Term} {types : TypeTable} {b : Blueprint} (hids : t.ids.Nodup)
    (hb : Blueprint.ofTerm t types = .ok b) :
    b.listings.Pairwise fun l l' => l.record.id ≠ l'.record.id := by
  rw [listings_eq hb]
  exact Term.pairwise_listings_survey hids (escapesInside_of_ofTerm hb)

/-- **The escapes of a program are partitioned among its fragments.** If a program with different node
identities is split into units, then among the records that all fragments list as their own, each escape has
exactly one. It stands in the list of the escape's kind, with the body of the escape, and in the fragment that
it names as its owner; that is the innermost of the quotes around the escape which are still open after each
other escape on the way to it has closed the innermost one open there. Every record is one of an escape. -/
theorem escapes_partitioned (t : Term) (types : TypeTable) (b : Blueprint) (hids : t.ids.Nodup)
    (hb : Blueprint.ofTerm t types = .ok b) :
    (∀ path site kind body, (path, Term.escape site kind body) ∈ t.lineages [] →
      ∃ owner, (openQuotes path).head? = some owner ∧
        b.listings.filter (fun l => l.record.id = site.id) = [⟨owner, kind, ⟨site.id, body, owner⟩⟩]) ∧
    ∀ l ∈ b.listings, ∃ path site, (path, Term.escape site l.kind l.record.body) ∈ t.lineages [] ∧
      site.id = l.record.id ∧ (openQuotes path).head? = some l.holder ∧ l.record.owner = l.holder := by
  have hperm := Blueprint.perm_listings hids hb
  constructor
  · intro path site kind body hmem
    have ho := hperm.mem_iff.2 (List.mem_filterMap.2 ⟨(path, .escape site kind body), hmem, rfl⟩)
    rcases List.mem_map.1 ho with ⟨l, hl, heq⟩
    rcases Option.map_eq_some_iff.1 heq.symm with ⟨owner, howner, rfl⟩
    exact ⟨owner, howner, filter_eq_singleton (Blueprint.pairwise_listings hids hb) hl⟩
  · intro l hl
    have hmem := hperm.mem_iff.1 (List.mem_map_of_mem hl)
    rcases List.mem_filterMap.1 hmem with ⟨⟨path, node⟩, hnode, ho⟩
    rcases Term.listing?_eq_some ho with ⟨site, rfl, hsite⟩
    exact ⟨path, site, hnode, hsite⟩

/-- `let s = $<1>; < [$s] + < [ %5 ] > >`: the innermost escape returns to the outer quote. -/
def returningEscape : Term :=
  .seq ⟨0, {}⟩ (.define ⟨1, {}⟩ "s" (.quote ⟨2, {}⟩ none true (.literal ⟨3, {}⟩ (.int 1))))
    (.quote ⟨4, {}⟩ none false (.binary ⟨5, {}⟩ .add (.escape ⟨6, {}⟩ .snippet (.lookup ⟨7, {}⟩ "s"))
      (.quote ⟨8, {}⟩ none false
        (.escape ⟨9, {}⟩ .splice (.escape ⟨10, {}⟩ .persist (.literal ⟨11, {}⟩ (.int 5)))))))

theorem escapes_partitioned_returning : ∃ b path,
    returningEscape.ids.Nodup ∧ Blueprint.ofTerm returningEscape .empty = .ok b ∧
      (path, .escape ⟨10, {}⟩ .persist (.literal ⟨11, {}⟩ (.int 5))) ∈ returningEscape.lineages [] ∧
      openQuotes path = [4] ∧ b.listings.length = 3 ∧
      b.listings.filter (fun l => l.record.id = 10) =
        [⟨4, .persist, ⟨10, .literal ⟨11, {}⟩ (.int 5), 4⟩⟩] := by
  obtain ⟨b, hb, hlength⟩ : ∃ b, Blueprint.ofTerm returningEscape .empty = .ok b ∧ b.listings.length = 3 :=
    ⟨_, rfl, rfl⟩
  obtain ⟨path, hmem, hpath⟩ : ∃ path, (path, Term.escape ⟨10, {}⟩ .persist (.literal ⟨11, {}⟩ (.int 5))) ∈
      returningEscape.lineages [] ∧ openQuotes path = [4] :=
    ⟨_, .tail _ (.tail _ (.tail _ (.tail _ (.tail _ (.tail _ (.tail _ (.tail _ (.tail _ (.tail _
      (.head _)))))))))), rfl⟩
  have hids : returningEscape.ids.Nodup := by decide
  obtain ⟨owner, howner, hrecords⟩ := (escapes_partitioned returningEscape .empty b hids hb).1 path _ _ _ hmem
  rw [hpath] at howner
  cases howner
  exact ⟨b, path, hids, hb, hmem, hpath, hlength, hrecords⟩

end Multistage
