import Multistage.Proofs.DownwardReferences
import Multistage.Proofs.FragmentEscapes
import Multistage.Proofs.NodeScopes
import Multistage.Proofs.SplitFaults

/-!
# Which snippets fill which holes

A hole names a variable, and every snippet that is given to this variable fills the hole. The holes are linked one
after another, and each step only adds to what fragments fill (`Survey.Fills`). A step fails where the hole names no
definition, or where a snippet of it fills another hole already. So linking succeeds just if all holes name
definitions and no two of them share a snippet (`Survey.Linkable.link_ok_iff`), in whatever order they come.

On the side of the program, a variable is given snippets where it is defined and where it is assigned to
(`Term.SnippetOf`), and no snippet is given twice (`Term.nodup_snippets`).

Main statement: `snippets_linked_exactly`.
-/

namespace Multistage

/-! ## Giving holes to snippets -/

namespace Survey

/-- The hole that a fragment fills. -/
def fillsIn (fragments : Table Fragment) (id : NodeId) : Option NodeId := (fragments.get? id).bind (·.fills)

/-- There are the same fragments in the second table, and they fill what they fill in the first one, and more. -/
structure Fills (before : Table Fragment) (more : NodeId → NodeId → Prop) (after : Table Fragment) : Prop where
  same : ∀ id, after.get? id = none ↔ before.get? id = none
  fills : ∀ id hole, fillsIn after id = some hole ↔ fillsIn before id = some hole ∨ more id hole

variable {first second third : Table Fragment} {hole snippet : NodeId}

theorem Fills.refl {more : NodeId → NodeId → Prop} (fragments : Table Fragment) (hmore : ∀ id hole, ¬ more id hole) :
    Fills fragments more fragments where
  same _ := Iff.rfl
  fills id hole := (or_iff_left (hmore id hole)).symm

theorem Fills.trans {more more' all : NodeId → NodeId → Prop} (h : Fills first more second)
    (h' : Fills second more' third) (hall : ∀ id hole, all id hole ↔ more id hole ∨ more' id hole) :
    Fills first all third where
  same id := (h'.same id).trans (h.same id)
  fills id hole := by rw [h'.fills, h.fills, hall, or_assoc]

/-- A fragment fills nothing if it did not before and has been given nothing. -/
theorem Fills.eq_none_iff {more : NodeId → NodeId → Prop} (h : Fills first more second) (id : NodeId) :
    fillsIn second id = none ↔ fillsIn first id = none ∧ ∀ hole, ¬ more id hole := by
  simp only [Option.eq_none_iff_forall_ne_some, ne_eq, h.fills, not_or, forall_and]

theorem Fills.ne_none {more : NodeId → NodeId → Prop} (h : Fills first more second) {ids : List NodeId}
    (hids : ∀ id ∈ ids, first.get? id ≠ none) : ∀ id ∈ ids, second.get? id ≠ none := by
  intro id hid hnone
  exact hids id hid ((h.same id).1 hnone)

/-- A snippet with a record is given a hole if it fills none. -/
theorem assignHole_eq_ok_iff (hsnippet : first.get? snippet ≠ none) :
    assignHole hole first snippet = .ok second ↔
      fillsIn first snippet = none ∧ second = first.modify snippet fun f => { f with fills := some hole } := by
  obtain ⟨f, hf⟩ := Option.ne_none_iff_exists'.1 hsnippet
  rw [assignHole, fillsIn, hf]
  dsimp only [Option.bind_some]
  cases f.fills with
  | none => simp [eq_comm]
  | some other => simp

/-- Assigning a hole changes what one snippet fills. -/
theorem fills_assignHole (hsnippet : first.get? snippet ≠ none) (h : assignHole hole first snippet = .ok second) :
    Fills first (fun id hole' => id = snippet ∧ hole' = hole) second := by
  rcases (assignHole_eq_ok_iff hsnippet).1 h with ⟨hnone, rfl⟩
  constructor
  · intro id
    rw [Table.get?_modify]
    split <;> simp
  · intro id hole'
    rw [fillsIn, Table.get?_modify]
    by_cases hid : id = snippet
    · obtain ⟨f, hf⟩ := Option.ne_none_iff_exists'.1 hsnippet
      rw [hid, hnone, hf]
      simp [eq_comm]
    · simp [hid, fillsIn]

/-- A hole is given to snippets one after another. -/
theorem fills_assignAll {snippets : List NodeId} (hpresent : ∀ id ∈ snippets, first.get? id ≠ none)
    (h : snippets.foldlM (assignHole hole) first = .ok second) :
    Fills first (fun id hole' => id ∈ snippets ∧ hole' = hole) second := by
  induction snippets generalizing first with
  | nil =>
    cases h
    exact .refl _ fun id hole' hmem => List.not_mem_nil hmem.1
  | cons snippet rest ih =>
    rw [List.foldlM_cons] at h
    rcases Except.bind_eq_ok.1 h with ⟨middle, hhead, htail⟩
    rcases List.forall_mem_cons.1 hpresent with ⟨hsnippet, hrest⟩
    have hstep := fills_assignHole hsnippet hhead
    refine hstep.trans (ih (hstep.ne_none hrest) htail) fun id hole' => ?_
    rw [List.mem_cons, or_and_right]

/-- Different snippets can all be given a hole just if none of them fills one. -/
theorem assignAll_ok_iff {snippets : List NodeId} (hnodup : snippets.Nodup)
    (hpresent : ∀ id ∈ snippets, first.get? id ≠ none) :
    (∃ second, snippets.foldlM (assignHole hole) first = .ok second) ↔
      ∀ id ∈ snippets, fillsIn first id = none := by
  induction snippets generalizing first with
  | nil => exact ⟨fun _ => List.forall_mem_nil _, fun _ => ⟨first, rfl⟩⟩
  | cons snippet rest ih =>
    rcases List.forall_mem_cons.1 hpresent with ⟨hsnippet, hrest⟩
    rw [List.nodup_cons] at hnodup
    -- what is done for the first snippet does not concern the others
    have hothers : ∀ {middle}, assignHole hole first snippet = .ok middle →
        ((∃ second, rest.foldlM (assignHole hole) middle = .ok second) ↔ ∀ id ∈ rest, fillsIn first id = none) := by
      intro middle hhead
      have hstep := fills_assignHole hsnippet hhead
      rw [ih hnodup.2 (hstep.ne_none hrest)]
      refine forall₂_congr fun id hid => ?_
      rw [hstep.eq_none_iff]
      refine and_iff_left fun hole' hmore => ?_
      exact hnodup.1 (hmore.1 ▸ hid)
    rw [List.foldlM_cons, List.forall_mem_cons]
    constructor
    · rintro ⟨second, h⟩
      rcases Except.bind_eq_ok.1 h with ⟨middle, hhead, htail⟩
      exact ⟨((assignHole_eq_ok_iff hsnippet).1 hhead).1, (hothers hhead).1 ⟨second, htail⟩⟩
    · rintro ⟨hnone, hnones⟩
      have hhead : assignHole hole first snippet =
          .ok (first.modify snippet fun f => { f with fills := some hole }) :=
        (assignHole_eq_ok_iff hsnippet).2 ⟨hnone, rfl⟩
      rcases (hothers hhead).2 hnones with ⟨second, htail⟩
      exact ⟨second, Except.bind_eq_ok.2 ⟨_, hhead, htail⟩⟩

/-! ## Linking holes -/

variable {s linked : Survey} {record : EscapeRecord}

/-- All holes, in the order in which they are linked. -/
def holes (s : Survey) : List EscapeRecord := s.fragments.values.flatMap (·.ownSnippet)

/-- A hole takes the snippets of the definition that it names. -/
def Takes (s : Survey) (record : EscapeRecord) (snippet : NodeId) : Prop :=
  ∃ definition, holeDefinition s.uses record = .ok definition ∧ (definition, snippet) ∈ s.snippets

/-- No snippet is taken by both holes. -/
def Apart (s : Survey) (record record' : EscapeRecord) : Prop := ∀ id, s.Takes record id → ¬ s.Takes record' id

instance (s : Survey) : Std.Symm s.Apart := ⟨fun _ _ h id htakes' htakes => h id htakes htakes'⟩

theorem mem_snippetsOf {definition : NodeId} :
    snippet ∈ s.snippetsOf definition ↔ (definition, snippet) ∈ s.snippets := by
  simp [snippetsOf]

/-- A hole takes the snippets of the definition that it names. -/
theorem takes_iff {definition : NodeId} (h : holeDefinition s.uses record = .ok definition) :
    s.Takes record snippet ↔ snippet ∈ s.snippetsOf definition := by
  rw [mem_snippetsOf, Takes, h]
  constructor
  · rintro ⟨definition', hsame, hmem⟩
    cases hsame
    exact hmem
  · intro hmem
    exact ⟨definition, rfl, hmem⟩

theorem nodup_snippetsOf (honce : (s.snippets.map (·.2)).Nodup) (definition : NodeId) :
    (s.snippetsOf definition).Nodup :=
  (List.filter_sublist.map _).nodup honce

theorem present_snippetsOf (hpresent : ∀ id ∈ s.snippets.map (·.2), first.get? id ≠ none) (definition : NodeId) :
    ∀ id ∈ s.snippetsOf definition, first.get? id ≠ none := by
  intro id hid
  exact hpresent id ((List.filter_sublist.map _).subset hid)

theorem fills_linkHole (hpresent : ∀ id ∈ s.snippets.map (·.2), first.get? id ≠ none)
    (h : s.linkHole first record = .ok second) :
    Fills first (fun id hole => record.id = hole ∧ s.Takes record id) second := by
  rcases Except.bind_eq_ok.1 h with ⟨definition, hdefinition, hassign⟩
  have hfills := fills_assignAll (present_snippetsOf hpresent definition) hassign
  refine ⟨hfills.same, fun id hole => ?_⟩
  rw [hfills.fills, takes_iff hdefinition, and_comm, eq_comm (a := hole) (b := record.id)]

/-- A hole can be linked if it names a definition whose snippets all fill nothing. -/
theorem linkHole_ok_iff (honce : (s.snippets.map (·.2)).Nodup)
    (hpresent : ∀ id ∈ s.snippets.map (·.2), first.get? id ≠ none) :
    (∃ second, s.linkHole first record = .ok second) ↔
      (∃ definition, holeDefinition s.uses record = .ok definition) ∧
        ∀ id, s.Takes record id → fillsIn first id = none := by
  have hassign : ∀ {definition}, holeDefinition s.uses record = .ok definition →
      ((∃ second, (s.snippetsOf definition).foldlM (assignHole record.id) first = .ok second) ↔
        ∀ id, s.Takes record id → fillsIn first id = none) := by
    intro definition hdefinition
    rw [assignAll_ok_iff (nodup_snippetsOf honce definition) (present_snippetsOf hpresent definition)]
    exact forall_congr' fun id => by rw [takes_iff hdefinition]
  constructor
  · rintro ⟨second, h⟩
    rcases Except.bind_eq_ok.1 h with ⟨definition, hdefinition, hfold⟩
    exact ⟨⟨definition, hdefinition⟩, (hassign hdefinition).1 ⟨second, hfold⟩⟩
  · rintro ⟨⟨definition, hdefinition⟩, hnone⟩
    rcases (hassign hdefinition).2 hnone with ⟨second, hfold⟩
    exact ⟨second, Except.bind_eq_ok.2 ⟨definition, hdefinition, hfold⟩⟩

/-- Holes are linked one after another. -/
theorem fills_linkAll {records : List EscapeRecord} (hpresent : ∀ id ∈ s.snippets.map (·.2), first.get? id ≠ none)
    (h : records.foldlM s.linkHole first = .ok second) :
    Fills first (fun id hole => ∃ record ∈ records, record.id = hole ∧ s.Takes record id) second := by
  induction records generalizing first with
  | nil =>
    cases h
    exact .refl _ fun id hole hmem => by simp at hmem
  | cons record rest ih =>
    rw [List.foldlM_cons] at h
    rcases Except.bind_eq_ok.1 h with ⟨middle, hhead, htail⟩
    have hstep := fills_linkHole hpresent hhead
    refine hstep.trans (ih (hstep.ne_none hpresent) htail) fun id hole => ?_
    simp only [List.mem_cons, or_and_right, exists_or, exists_eq_left]

/-- Holes can be linked if each names a definition and takes only snippets that fill nothing, and no two of them take
the same snippet. -/
theorem linkAll_ok_iff {records : List EscapeRecord} (honce : (s.snippets.map (·.2)).Nodup)
    (hpresent : ∀ id ∈ s.snippets.map (·.2), first.get? id ≠ none) :
    (∃ second, records.foldlM s.linkHole first = .ok second) ↔
      (∀ record ∈ records, (∃ definition, holeDefinition s.uses record = .ok definition) ∧
        ∀ id, s.Takes record id → fillsIn first id = none) ∧
      records.Pairwise s.Apart := by
  induction records generalizing first with
  | nil => exact ⟨fun _ => ⟨List.forall_mem_nil _, .nil⟩, fun _ => ⟨first, rfl⟩⟩
  | cons record rest ih =>
    rw [List.foldlM_cons, List.forall_mem_cons, List.pairwise_cons, ← linkHole_ok_iff honce hpresent]
    constructor
    · rintro ⟨second, h⟩
      rcases Except.bind_eq_ok.1 h with ⟨middle, hhead, htail⟩
      have hstep := fills_linkHole hpresent hhead
      rcases (ih (hstep.ne_none hpresent)).1 ⟨second, htail⟩ with ⟨hrest, hpairwise⟩
      refine ⟨⟨⟨middle, hhead⟩, fun record' hmem => ⟨(hrest record' hmem).1, fun id htakes => ?_⟩⟩,
        fun record' hmem id htakes htakes' => ?_, hpairwise⟩
      · exact ((hstep.eq_none_iff id).1 ((hrest record' hmem).2 id htakes)).1
      · exact ((hstep.eq_none_iff id).1 ((hrest record' hmem).2 id htakes')).2 record.id ⟨rfl, htakes⟩
    · rintro ⟨⟨⟨middle, hhead⟩, hrest⟩, hapart, hpairwise⟩
      have hstep := fills_linkHole hpresent hhead
      have hnext : ∀ record' ∈ rest, (∃ definition, holeDefinition s.uses record' = .ok definition) ∧
          ∀ id, s.Takes record' id → fillsIn middle id = none := by
        intro record' hmem
        refine ⟨(hrest record' hmem).1, fun id htakes => (hstep.eq_none_iff id).2 ⟨?_, fun hole hmore => ?_⟩⟩
        · exact (hrest record' hmem).2 id htakes
        · exact hapart record' hmem id hmore.2 htakes
      rcases (ih (hstep.ne_none hpresent)).2 ⟨hnext, hpairwise⟩ with ⟨second, htail⟩
      exact ⟨second, Except.bind_eq_ok.2 ⟨middle, hhead, htail⟩⟩

/-- Before holes are linked: every snippet has a record which fills nothing, and is given to one definition. -/
structure Linkable (s : Survey) : Prop where
  once : (s.snippets.map (·.2)).Nodup
  present : ∀ id ∈ s.snippets.map (·.2), s.fragments.get? id ≠ none
  unfilled : ∀ id, fillsIn s.fragments id = none

/-- Linking succeeds if all holes name definitions and no two take the same snippet. -/
theorem Linkable.link_ok_iff (h : s.Linkable) : (∃ linked, s.link = .ok linked) ↔
    (∀ record ∈ s.holes, ∃ definition, holeDefinition s.uses record = .ok definition) ∧
      s.holes.Pairwise s.Apart := by
  have hlink : (∃ linked, s.link = .ok linked) ↔
      ∃ fragments, s.holes.foldlM s.linkHole s.fragments = .ok fragments := by
    rw [link]
    constructor
    · rintro ⟨linked, hok⟩
      rcases Except.bind_eq_ok.1 hok with ⟨fragments, hfold, -⟩
      exact ⟨fragments, hfold⟩
    · rintro ⟨fragments, hfold⟩
      exact ⟨_, Except.bind_eq_ok.2 ⟨fragments, hfold, rfl⟩⟩
  rw [hlink, linkAll_ok_iff h.once h.present]
  refine and_congr_left fun _ => forall₂_congr fun record _ => and_iff_left fun id _ => h.unfilled id

/-- After linking, a fragment fills the hole whose variable it is given to. -/
theorem Linkable.fillsIn_link (h : s.Linkable) (hlink : s.link = .ok linked) :
    fillsIn linked.fragments snippet = some hole ↔ s.Assigns snippet hole := by
  rcases Except.bind_eq_ok.1 hlink with ⟨fragments, hfold, hpure⟩
  cases hpure
  rw [(fills_linkAll h.present hfold).fills, h.unfilled]
  exact or_iff_right (Option.some_ne_none hole).symm

end Survey

/-! ## The snippets of a program -/

/-- A snippet that is given to a definition. -/
def Finding.snippet? : Finding → Option (NodeId × NodeId)
  | .snippet d value => some (d, value)
  | _ => none

/-- The snippets of a survey are those found, in order. -/
theorem Survey.snippets_noteAll (s : Survey) (xs : List Finding) :
    (s.noteAll xs).snippets = s.snippets ++ xs.filterMap Finding.snippet? := by
  induction xs generalizing s with
  | nil => exact (List.append_nil _).symm
  | cons x rest ih =>
    have hx : (s.note x).snippets = s.snippets ++ x.snippet?.toList := by
      rw [(uses_snippets_note s x).2]
      cases x with
      | snippet definition snippet => rfl
      | _ => exact (List.append_nil _).symm
    rw [noteAll_cons, ih, hx, filterMap_cons_toList, List.append_assoc]

namespace Term

variable {t : Term} {position : Position} {scope : Scope NodeId} {definition snippet hole : NodeId}

/-- A snippet is the value of a definition, or of an assignment to it. -/
def SnippetOf (t : Term) (definition snippet : NodeId) : Prop :=
  (∃ site name value, .define site name value ∈ t.nodes ∧ site.id = definition ∧ value.snippet? = some snippet) ∨
    ∃ site name value, .assign site name value ∈ t.nodes ∧ t.Resolves site.id definition ∧
      value.snippet? = some snippet

/-- A hole names a definition. -/
def HoleNames (t : Term) (hole definition : NodeId) : Prop :=
  ∃ site inner name, .escape site .snippet (.lookup inner name) ∈ t.nodes ∧ site.id = hole ∧
    t.Resolves inner.id definition

theorem mem_givenTo_iff {given : Option NodeId} : .snippet definition snippet ∈ t.givenTo given ↔
    given = some definition ∧ t.snippet? = some snippet := by
  refine ⟨mem_givenTo, ?_⟩
  rintro ⟨rfl, hsnippet⟩
  simp [givenTo, hsnippet]

/-- A snippet is found where it is given to a definition. -/
theorem snippet_mem_findingsAt : .snippet definition snippet ∈ t.findingsAt position scope ↔
    (∃ site name value, t = .define site name value ∧ site.id = definition ∧ value.snippet? = some snippet) ∨
      ∃ site name value, t = .assign site name value ∧ scope.lookup? name = some definition ∧
        value.snippet? = some snippet := by
  cases t with
  | lambda s params body =>
    simp only [findingsAt, procedureAt]
    cases position.fragments <;> simp
  | _ => simp [findingsAt, mem_givenTo_iff]

theorem mem_stations_of_nodes {node : Term} (h : node ∈ t.nodes) : ∃ e ∈ t.stations [] {}, e.node = node := by
  rw [← t.map_snd_lineages [], ← map_stations t [] {}, List.map_map] at h
  exact List.mem_map.1 h

/-- An assignment is to the definition that its name stands for where the walk comes to it. -/
theorem resolves_assign_iff (hids : t.ids.Nodup) {e : Station} (he : e ∈ t.stations [] {}) {site : Site}
    {name : String} {value : Term} (hnode : e.node = .assign site name value) :
    t.Resolves site.id definition ↔ e.scope.lookup? name = some definition := by
  have hid : e.node.id = site.id := by rw [hnode]; rfl
  constructor
  · rintro ⟨e', he', hid', name', hname', hdefinition⟩
    obtain rfl := station_unique hids he' he (hid'.trans hid.symm)
    rw [hnode] at hname'
    cases hname'
    exact hdefinition
  · intro hdefinition
    exact ⟨e, he, hid, name, by rw [hnode]; rfl, hdefinition⟩

/-- The snippets that are written down are those which are given to definitions. -/
theorem mem_snippets_iff (hids : t.ids.Nodup) (hinside : t.EscapesInside (openQuotes []).length) :
    (definition, snippet) ∈ t.survey.snippets ↔ t.SnippetOf definition snippet := by
  have hfound : (definition, snippet) ∈ t.survey.snippets ↔
      .snippet definition snippet ∈ t.findings ⟨t.id, []⟩ {} := by
    rw [survey, Survey.snippets_noteAll, List.nil_append, List.mem_filterMap]
    constructor
    · rintro ⟨x, hx, hsnippet⟩
      cases x with
      | snippet d q =>
        cases hsnippet
        exact hx
      | _ => cases hsnippet
    · intro hx
      exact ⟨_, hx, rfl⟩
  rw [hfound, mem_findings_iff hinside]
  constructor
  · rintro ⟨e, he, hx⟩
    have hnode : e.node ∈ t.nodes := mem_nodes_of_lineages (mem_lineages_of_stations he)
    rcases snippet_mem_findingsAt.1 hx with
      ⟨site, name, value, heq, hid, hvalue⟩ | ⟨site, name, value, heq, hname, hvalue⟩
    · exact .inl ⟨site, name, value, heq ▸ hnode, hid, hvalue⟩
    · exact .inr ⟨site, name, value, heq ▸ hnode, (resolves_assign_iff hids he heq).2 hname, hvalue⟩
  · rintro (⟨site, name, value, hnode, hid, hvalue⟩ | ⟨site, name, value, hnode, hresolves, hvalue⟩)
    · rcases mem_stations_of_nodes hnode with ⟨e, he, heq⟩
      exact ⟨e, he, snippet_mem_findingsAt.2 (.inl ⟨site, name, value, heq, hid, hvalue⟩)⟩
    · rcases mem_stations_of_nodes hnode with ⟨e, he, heq⟩
      refine ⟨e, he, snippet_mem_findingsAt.2 (.inr ⟨site, name, value, heq, ?_, hvalue⟩)⟩
      exact (resolves_assign_iff hids he heq).1 hresolves

/-- The path to a child of a node goes through the node. -/
theorem lineages_child {above path : List Term} {node child : Term} (h : (path, node) ∈ t.lineages above)
    (hchild : child ∈ node.children) : (path ++ [node], child) ∈ t.lineages above := by
  induction t using induct_children generalizing above with
  | step t ih =>
    rw [lineages_eq] at h ⊢
    rcases List.mem_cons.1 h with h | h
    · cases h
      refine List.mem_cons_of_mem _ (List.mem_flatMap.2 ⟨child, hchild, ?_⟩)
      rw [lineages_eq]
      exact List.mem_cons_self
    · rcases List.mem_flatMap.1 h with ⟨inner, hinner, h⟩
      exact List.mem_cons_of_mem _ (List.mem_flatMap.2 ⟨inner, hinner, ih inner hinner h⟩)

/-- A snippet that is given to a definition at a node is a child of the node. -/
theorem child_of_snippet (h : .snippet definition snippet ∈ t.findingsAt position scope) :
    ∃ child ∈ t.children, child.id = snippet := by
  have hquote : ∀ value : Term, value.snippet? = some snippet → value.id = snippet := by
    intro value hvalue
    rcases quote_of_snippet? hvalue with ⟨site, label, body, rfl, hid⟩
    exact hid
  rcases snippet_mem_findingsAt.1 h with ⟨_, _, value, rfl, -, hvalue⟩ | ⟨_, _, value, rfl, -, hvalue⟩
  · exact ⟨value, List.mem_singleton.2 rfl, hquote value hvalue⟩
  · exact ⟨value, List.mem_singleton.2 rfl, hquote value hvalue⟩

/-- At most one snippet is given to a definition at a node. -/
theorem nodup_snippetsAt (t : Term) (position : Position) (scope : Scope NodeId) :
    (((t.findingsAt position scope).filterMap Finding.snippet?).map (·.2)).Nodup := by
  have hgiven : ∀ (value : Term) (given : Option NodeId),
      (((value.givenTo given).filterMap Finding.snippet?).map (·.2)).Nodup := by
    intro value given
    unfold givenTo
    split
    · exact List.nodup_singleton _
    · exact List.nodup_nil
  cases t with
  | define s name value | assign s name value => exact hgiven value _
  | escape s kind body =>
    simp only [findingsAt]
    cases position.fragments <;> exact List.nodup_nil
  | lambda s params body =>
    have hparams : (params.map fun param =>
        Finding.definition (position.called s.id).home param.id).filterMap Finding.snippet? = [] := by
      rw [List.filterMap_map]
      exact List.filterMap_eq_nil_iff.2 fun _ _ => rfl
    rw [findingsAt, List.filterMap_append, filterMap_procedureAt (fun _ _ => rfl), hparams]
    exact List.nodup_nil
  | _ => exact List.nodup_nil

/-- The path to a snippet leads through the node where it is given to a definition. -/
theorem lineage_of_snippet {e : Station} (he : e ∈ t.stations [] {})
    (h : snippet ∈ ((e.node.findingsAt position e.scope).filterMap Finding.snippet?).map (·.2)) :
    ∃ child, (e.path ++ [e.node], child) ∈ t.lineages [] ∧ child.id = snippet := by
  rcases List.mem_map.1 h with ⟨⟨definition, snippet⟩, hgiven, rfl⟩
  rcases List.mem_filterMap.1 hgiven with ⟨x, hx, hsnippet⟩
  cases x with
  | snippet d q =>
    cases hsnippet
    rcases child_of_snippet hx with ⟨child, hchild, hid⟩
    exact ⟨child, lineages_child (mem_lineages_of_stations he) hchild, hid⟩
  | _ => cases hsnippet

/-- No snippet is given to definitions twice: it is the child of one node. -/
theorem nodup_snippets (hids : t.ids.Nodup) (hinside : t.EscapesInside (openQuotes []).length) :
    (t.survey.snippets.map (·.2)).Nodup := by
  have hperm := ((perm_findings t.id hinside {}).filterMap Finding.snippet?).map (·.2)
  rw [survey, Survey.snippets_noteAll, List.nil_append]
  refine hperm.nodup_iff.2 ?_
  rw [List.filterMap_flatMap, List.map_flatMap, List.nodup_flatMap]
  constructor
  · intro e _
    exact nodup_snippetsAt _ _ _
  · have hnodes : (t.stations [] {}).Pairwise fun e e' => e.node.id ≠ e'.node.id := by
      refine List.pairwise_map.1 ?_
      rw [map_id_stations]
      exact hids
    refine hnodes.imp_of_mem fun {e e'} he he' hne snippet hmem hmem' => hne ?_
    rcases lineage_of_snippet he hmem with ⟨child, hlineage, hid⟩
    rcases lineage_of_snippet he' hmem' with ⟨child', hlineage', hid'⟩
    have hsame := (Prod.mk.inj (lineage_unique hids hlineage hlineage' (hid.trans hid'.symm))).1
    exact congrArg Term.id (List.singleton_inj.1 (List.append_inj_right' hsame rfl))

/-- Every quote has a record. -/
theorem get?_survey_of_quote (hinside : t.EscapesInside (openQuotes []).length) {site : Site}
    {label : Option String} {marked : Bool} {body : Term} (h : .quote site label marked body ∈ t.nodes) :
    t.survey.fragments.get? site.id ≠ none := by
  rw [← t.map_snd_lineages []] at h
  rcases List.mem_map.1 h with ⟨⟨path, node⟩, hpath, rfl⟩
  have hopened := (mem_fragments_openings t.id).2 ⟨path, site, label, marked, body, hpath, rfl, rfl⟩
  rcases Table.get?_ofList_of_mem hopened with ⟨head, hhead⟩
  have hrecord := (t.heads_survey hinside).fragment site.id
  intro hnone
  rw [hnone, hhead] at hrecord
  cases hrecord

end Term

/-- A fragment that starts with nothing to fill is given nothing by the walk. -/
theorem Survey.unfilled_note {s : Survey} {x : Finding} (hs : ∀ id, fillsIn s.fragments id = none)
    (hx : ∀ f, x.mark? = some (.opens f) → f.fills = none) (id : NodeId) :
    fillsIn (s.note x).fragments id = none := by
  unfold fillsIn
  cases hget : (s.note x).fragments.get? id with
  | none => rfl
  | some f' =>
    show f'.fills = none
    by_cases hopens : ∃ f, x.mark? = some (.opens f) ∧ f.id = id
    · rcases hopens with ⟨f, hf, rfl⟩
      rw [(fragment_note_opens hf hget).fills]
      exact hx f hf
    · rcases fragment_note (fun f hf heq => hopens ⟨f, hf, heq⟩) hget with ⟨f, hf, hgrown⟩
      have hbefore := hs id
      rw [fillsIn, hf] at hbefore
      rw [hgrown.fills]
      exact hbefore

/-- Before linking no fragment fills a hole. -/
theorem Survey.unfilled_noteAll {s : Survey} {xs : List Finding} (hs : ∀ id, fillsIn s.fragments id = none)
    (hxs : ∀ f, .opens f ∈ xs.filterMap Finding.mark? → f.fills = none) (id : NodeId) :
    fillsIn (s.noteAll xs).fragments id = none := by
  induction xs generalizing s with
  | nil => exact hs id
  | cons x rest ih =>
    rw [noteAll_cons]
    refine ih (unfilled_note hs fun f hf => ?_) fun f hf => ?_
    · exact hxs f (List.mem_filterMap.2 ⟨x, List.mem_cons_self, hf⟩)
    · rcases List.mem_filterMap.1 hf with ⟨y, hy, hmark⟩
      exact hxs f (List.mem_filterMap.2 ⟨y, List.mem_cons_of_mem _ hy, hmark⟩)

/-- What the walk through a program has found can be linked. -/
theorem Term.linkable_survey {t : Term} (hids : t.ids.Nodup) (hinside : t.EscapesInside (openQuotes []).length) :
    t.survey.Linkable where
  once := nodup_snippets hids hinside
  present := by
    intro snippet hmem
    rcases List.mem_map.1 hmem with ⟨⟨definition, snippet⟩, hgiven, rfl⟩
    rcases (mem_snippets_iff hids hinside).1 hgiven with
      ⟨_, _, value, hnode, -, hvalue⟩ | ⟨_, _, value, hnode, -, hvalue⟩
    all_goals
      rcases quote_of_snippet? hvalue with ⟨site, label, body, rfl, rfl⟩
      exact get?_survey_of_quote hinside (nodes_subset hnode (nodes_child List.mem_cons_self (mem_nodes_self _)))
  unfilled := by
    refine Survey.unfilled_noteAll (fun id => rfl) fun f hf => ?_
    rw [marks_findings] at hf
    rcases quote_of_opens hf with ⟨site, label, marked, parent, -, heq⟩
    rw [heq]

/-! ## The holes of a program -/

/-- The hole that a record is of. -/
def Listing.hole? (l : Listing) : Option EscapeRecord := if l.kind = .snippet then some l.record else none

theorem Survey.holes_eq (s : Survey) : s.holes = (listingsOf s.fragments.entries).filterMap Listing.hole? := by
  rw [holes, Table.values, List.flatMap_map, listingsOf, List.filterMap_flatMap]
  refine List.flatMap_congr fun entry _ => ?_
  simp [Fragment.listings, Listing.hole?, List.filterMap_map, Function.comp_def]

/-- The holes of a survey are the snippet escapes that its fragments list. -/
theorem Survey.mem_holes {s : Survey} {record : EscapeRecord} : record ∈ s.holes ↔
    ∃ holder, ⟨holder, .snippet, record⟩ ∈ listingsOf s.fragments.entries := by
  rw [holes_eq, List.mem_filterMap]
  constructor
  · rintro ⟨⟨holder, kind, record'⟩, hmem, hhole⟩
    simp only [Listing.hole?, Option.ite_none_right_eq_some, Option.some.injEq] at hhole
    obtain ⟨rfl, rfl⟩ := hhole
    exact ⟨holder, hmem⟩
  · rintro ⟨holder, hmem⟩
    exact ⟨_, hmem, rfl⟩

namespace Term

variable {t : Term} {record : EscapeRecord} {definition snippet hole : NodeId}

/-- The holes that are linked are the snippet escapes of the program. -/
theorem escape_of_holes (hids : t.ids.Nodup) (hinside : t.EscapesInside (openQuotes []).length)
    (h : record ∈ t.survey.holes) : ∃ site, .escape site .snippet record.body ∈ t.nodes ∧ site.id = record.id := by
  rcases Survey.mem_holes.1 h with ⟨holder, hmem⟩
  have hlisting := (perm_listings_survey hids hinside).mem_iff.1 (List.mem_map_of_mem hmem)
  rcases List.mem_filterMap.1 hlisting with ⟨⟨path, node⟩, hnode, heq⟩
  rcases listing?_eq_some heq with ⟨site, rfl, hid, -⟩
  exact ⟨site, mem_nodes_of_lineages hnode, hid⟩

/-- Every snippet escape of a program is a hole of its survey. -/
theorem holes_of_escape (hids : t.ids.Nodup) (hinside : t.EscapesInside (openQuotes []).length) {site : Site}
    {body : Term} (h : .escape site .snippet body ∈ t.nodes) :
    ∃ record ∈ t.survey.holes, record.id = site.id ∧ record.body = body := by
  rw [← t.map_snd_lineages []] at h
  rcases List.mem_map.1 h with ⟨⟨path, node⟩, hpath, rfl⟩
  have hlisting := (perm_listings_survey hids hinside).mem_iff.2 (List.mem_filterMap.2 ⟨_, hpath, rfl⟩)
  rcases List.mem_map.1 hlisting with ⟨l, hmem, heq⟩
  rcases Option.map_eq_some_iff.1 heq.symm with ⟨owner, -, rfl⟩
  exact ⟨_, Survey.mem_holes.2 ⟨owner, hmem⟩, rfl, rfl⟩

theorem pairwise_holes (hids : t.ids.Nodup) (hinside : t.EscapesInside (openQuotes []).length) :
    t.survey.holes.Pairwise fun record record' => record.id ≠ record'.id := by
  rw [Survey.holes_eq]
  refine List.Pairwise.filterMap _ (fun l l' hne r hr r' hr' => ?_) (pairwise_listings_survey hids hinside)
  simp only [Listing.hole?, Option.ite_none_right_eq_some, Option.some.injEq] at hr hr'
  rw [← hr.2, ← hr'.2]
  exact hne

/-- The definition of a hole is the one that its name stands for. -/
theorem holeDefinition_iff (hids : t.ids.Nodup) (hinside : t.EscapesInside (openQuotes []).length) :
    Survey.holeDefinition t.survey.uses record = .ok definition ↔
      ∃ inner name, record.body = .lookup inner name ∧ t.Resolves inner.id definition := by
  unfold Survey.holeDefinition
  split
  · next inner name hbody =>
    have hbodies : (∃ inner' name', record.body = .lookup inner' name' ∧ t.Resolves inner'.id definition) ↔
        t.Resolves inner.id definition := by
      simp [hbody]
    rw [hbodies, ← get?_uses_iff hids hinside]
    cases t.survey.uses.get? inner.id <;> simp
  · next hother =>
    refine iff_of_false (fun h => by cases h) ?_
    rintro ⟨inner, name, hbody, -⟩
    exact hother inner name hbody

/-- A snippet is assigned to a hole exactly if the hole names a definition that the snippet is given to. -/
theorem assigns_iff (hids : t.ids.Nodup) (hinside : t.EscapesInside (openQuotes []).length) :
    t.survey.Assigns snippet hole ↔ ∃ definition, t.HoleNames hole definition ∧ t.SnippetOf definition snippet := by
  constructor
  · rintro ⟨record, hrecord, rfl, definition, hdefinition, hgiven⟩
    rcases escape_of_holes hids hinside hrecord with ⟨site, hnode, hid⟩
    rcases (holeDefinition_iff hids hinside).1 hdefinition with ⟨inner, name, hbody, hresolves⟩
    rw [hbody] at hnode
    exact ⟨definition, ⟨site, inner, name, hnode, hid, hresolves⟩, (mem_snippets_iff hids hinside).1 hgiven⟩
  · rintro ⟨definition, ⟨site, inner, name, hnode, rfl, hresolves⟩, hgiven⟩
    rcases holes_of_escape hids hinside hnode with ⟨record, hrecord, hid, hbody⟩
    refine ⟨record, hrecord, hid, definition, ?_, (mem_snippets_iff hids hinside).2 hgiven⟩
    exact (holeDefinition_iff hids hinside).2 ⟨inner, name, hbody, hresolves⟩

/-- Ways to misuse snippets. -/
inductive MisusesSnippets (t : Term) : Prop where
  /-- a hole holds something else than a name -/
  | notName {site : Site} {body : Term} (hole : .escape site .snippet body ∈ t.nodes) (other : body.tag ≠ .lookup)
  /-- the name in a hole has no definition -/
  | undefined {site inner : Site} {name : String} (hole : .escape site .snippet (.lookup inner name) ∈ t.nodes)
    (unresolved : ∀ definition, ¬ t.Resolves inner.id definition)
  /-- two holes name a definition that has a snippet -/
  | shared {hole hole' definition snippet : NodeId} (first : t.HoleNames hole definition)
    (second : t.HoleNames hole' definition) (different : hole ≠ hole') (given : t.SnippetOf definition snippet)

/-- All holes have definitions exactly if each snippet escape is a name that resolves to one. -/
theorem holes_defined_iff (hids : t.ids.Nodup) (hinside : t.EscapesInside (openQuotes []).length) :
    (∀ record ∈ t.survey.holes, ∃ definition, Survey.holeDefinition t.survey.uses record = .ok definition) ↔
      ∀ site body, .escape site .snippet body ∈ t.nodes →
        ∃ definition inner name, body = .lookup inner name ∧ t.Resolves inner.id definition := by
  simp only [holeDefinition_iff hids hinside]
  constructor
  · intro h site body hnode
    rcases holes_of_escape hids hinside hnode with ⟨record, hrecord, -, rfl⟩
    exact h record hrecord
  · intro h record hrecord
    rcases escape_of_holes hids hinside hrecord with ⟨site, hnode, -⟩
    exact h site record.body hnode

/-- Holes take different snippets if no two of them name a definition that has a snippet. -/
theorem holes_apart_iff (hids : t.ids.Nodup) (hinside : t.EscapesInside (openQuotes []).length) :
    t.survey.holes.Pairwise t.survey.Apart ↔
      ∀ hole hole' definition snippet, t.HoleNames hole definition → t.HoleNames hole' definition →
        t.SnippetOf definition snippet → hole = hole' := by
  constructor
  · intro hapart hole hole' definition snippet hfirst hsecond hgiven
    rcases (assigns_iff hids hinside).2 ⟨definition, hfirst, hgiven⟩ with ⟨record, hrecord, hid, htakes⟩
    rcases (assigns_iff hids hinside).2 ⟨definition, hsecond, hgiven⟩ with ⟨record', hrecord', hid', htakes'⟩
    by_contra hne
    have hdifferent : record ≠ record' := by
      rintro rfl
      exact hne (hid.symm.trans hid')
    exact hapart.forall hrecord hrecord' hdifferent snippet htakes htakes'
  · intro hsame
    refine (pairwise_holes hids hinside).imp_of_mem ?_
    intro record record' hrecord hrecord' hne id htakes htakes'
    have hfirst : t.survey.Assigns id record.id := ⟨record, hrecord, rfl, htakes⟩
    have hsecond : t.survey.Assigns id record'.id := ⟨record', hrecord', rfl, htakes'⟩
    rcases (assigns_iff hids hinside).1 hfirst with ⟨definition, hnames, hgiven⟩
    rcases (assigns_iff hids hinside).1 hsecond with ⟨definition', hnames', hgiven'⟩
    -- a snippet is given to one definition
    have honce := List.inj_on_of_nodup_map (nodup_snippets hids hinside)
      ((mem_snippets_iff hids hinside).2 hgiven) ((mem_snippets_iff hids hinside).2 hgiven') rfl
    cases honce
    exact hne (hsame _ _ definition id hnames hnames' hgiven)

/-- A program can be linked if it misuses no snippets. -/
theorem link_ok_iff (hids : t.ids.Nodup) (hinside : t.EscapesInside (openQuotes []).length) :
    (∃ linked, t.survey.link = .ok linked) ↔ ¬ t.MisusesSnippets := by
  rw [(linkable_survey hids hinside).link_ok_iff, holes_defined_iff hids hinside, holes_apart_iff hids hinside]
  constructor
  · rintro ⟨hdefined, hapart⟩ hmisuse
    cases hmisuse with
    | notName hnode hother =>
      rcases hdefined _ _ hnode with ⟨definition, inner, name, rfl, -⟩
      exact hother rfl
    | undefined hnode hnone =>
      rcases hdefined _ _ hnode with ⟨definition, inner, name, hbody, hresolves⟩
      cases hbody
      exact hnone definition hresolves
    | shared hfirst hsecond hne hgiven => exact hne (hapart _ _ _ _ hfirst hsecond hgiven)
  · intro hmisuse
    constructor
    · intro site body hnode
      by_contra hnone
      cases body with
      | lookup inner name =>
        refine hmisuse (.undefined hnode fun definition hresolves => hnone ?_)
        exact ⟨definition, inner, name, rfl, hresolves⟩
      | _ => exact hmisuse (.notName hnode (by simp [tag]))
    · intro hole hole' definition snippet hfirst hsecond hgiven
      by_contra hne
      exact hmisuse (.shared hfirst hsecond hne hgiven)

end Term

/-! ## Programs that are split -/

namespace Blueprint

variable {t : Term} {types : TypeTable} {b : Blueprint} {id hole : NodeId}

/-- Splitting fails for a snippet exactly if the program misuses one. -/
theorem ofTerm_error_iff (hids : t.ids.Nodup) (hinside : t.EscapesInside 0) :
    (∃ node misuse, Blueprint.ofTerm t types = .error (.invalidSnippet node misuse)) ↔ t.MisusesSnippets := by
  rw [← not_iff_not, ← Term.link_ok_iff hids hinside]
  constructor
  · intro hother
    rcases ofTerm_cases hinside types with ⟨b, hb⟩ | hmisuse
    · rcases ofTerm_eq_ok hb with ⟨linked, hlink, -⟩
      exact ⟨linked, hlink⟩
    · exact absurd hmisuse hother
  · rintro ⟨linked, hlink⟩ ⟨node, misuse, hb⟩
    cases hlink.symm.trans (link_of_ofTerm_eq_error hinside hb)

/-- In the units a snippet fills the hole that the program has it fill. -/
theorem fills_iff (hids : t.ids.Nodup) (hb : Blueprint.ofTerm t types = .ok b) :
    (∃ f, b.fragments.get? id = some f ∧ f.fills = some hole) ↔
      ∃ definition, t.HoleNames hole definition ∧ t.SnippetOf definition id := by
  have hinside := escapesInside_of_ofTerm hb
  rcases ofTerm_eq_ok hb with ⟨linked, hlink, -, hfragments, -⟩
  -- what a fragment fills is not touched when escapes are collected
  have hcollect : Survey.fillsIn b.fragments id = Survey.fillsIn linked.fragments id := by
    have hview := Survey.map_collect (fun _ f => f.fills) (fun _ _ _ _ => rfl) linked
    rw [← hfragments] at hview
    have hget := congrArg (fun fills => (Table.get? fills id).bind fun hole? => hole?) hview
    simp only [Table.get?_map, Option.bind_map] at hget
    exact hget
  rw [← Option.bind_eq_some_iff, ← Term.assigns_iff hids hinside,
    ← (Term.linkable_survey hids hinside).fillsIn_link hlink, ← hcollect]
  exact Iff.rfl

end Blueprint

/-- **Snippets are linked exactly.** For a program with different node identities that elaborates, splitting it into
units fails with a misuse of snippets just if a hole holds something else than a name, or a name without a
definition, or if two holes name one definition that a snippet is given to, where it is defined or in an
assignment. If the program is split, then a fragment fills a hole just if it is a snippet which is given in this
way to the definition that the hole names. -/
theorem snippets_linked_exactly (p : Prelude) (t : Term) (e : Elaboration) (types : TypeTable) (hids : t.ids.Nodup)
    (he : p.elaborate t = .ok e) :
    ((∃ node misuse, Blueprint.ofTerm t types = .error (.invalidSnippet node misuse)) ↔ t.MisusesSnippets) ∧
    ∀ b, Blueprint.ofTerm t types = .ok b → ∀ id hole,
      (∃ f, b.fragments.get? id = some f ∧ f.fills = some hole) ↔
        ∃ definition, t.HoleNames hole definition ∧ t.SnippetOf definition id := by
  constructor
  · exact Blueprint.ofTerm_error_iff hids (escapesInside_of_elaborate he)
  · intro b hb id hole
    exact Blueprint.fills_iff hids hb

/-- `let s = $<1>; let s = $<2>; s = $<3>; <[$s]>`: the first snippet is given to a variable that no hole names. -/
def hiddenSnippet : Term :=
  .seq ⟨0, {}⟩ (.define ⟨1, {}⟩ "s" (.quote ⟨2, {}⟩ none true (.literal ⟨3, {}⟩ (.int 1))))
    (.seq ⟨4, {}⟩ (.define ⟨5, {}⟩ "s" (.quote ⟨6, {}⟩ none true (.literal ⟨7, {}⟩ (.int 2))))
      (.seq ⟨8, {}⟩ (.assign ⟨9, {}⟩ "s" (.quote ⟨10, {}⟩ none true (.literal ⟨11, {}⟩ (.int 3))))
        (.quote ⟨12, {}⟩ none false (.escape ⟨13, {}⟩ .snippet (.lookup ⟨14, {}⟩ "s")))))

/-- `let s = $<1>; <[$s] + [$s]>`: both holes name the same variable. -/
def sharedSnippet : Term :=
  .seq ⟨0, {}⟩ (.define ⟨1, {}⟩ "s" (.quote ⟨2, {}⟩ none true (.literal ⟨3, {}⟩ (.int 1))))
    (.quote ⟨4, {}⟩ none false (.binary ⟨5, {}⟩ .add (.escape ⟨6, {}⟩ .snippet (.lookup ⟨7, {}⟩ "s"))
      (.escape ⟨8, {}⟩ .snippet (.lookup ⟨9, {}⟩ "s"))))

/-- The hole takes the two snippets of the name that it sees, and not that of the hidden one. -/
theorem snippets_linked_exactly_hidden : ∃ e e' b,
    hiddenSnippet.ids.Nodup ∧ Prelude.general.elaborate hiddenSnippet = .ok e ∧
      Blueprint.ofTerm hiddenSnippet .empty = .ok b ∧
      (∃ definition, hiddenSnippet.HoleNames 13 definition ∧ hiddenSnippet.SnippetOf definition 6) ∧
      (∃ definition, hiddenSnippet.HoleNames 13 definition ∧ hiddenSnippet.SnippetOf definition 10) ∧
      (¬ ∃ definition, hiddenSnippet.HoleNames 13 definition ∧ hiddenSnippet.SnippetOf definition 2) ∧
      sharedSnippet.ids.Nodup ∧ Prelude.general.elaborate sharedSnippet = .ok e' ∧ sharedSnippet.MisusesSnippets := by
  obtain ⟨e, he⟩ : ∃ e, Prelude.general.elaborate hiddenSnippet = .ok e := ⟨_, rfl⟩
  obtain ⟨e', he'⟩ : ∃ e', Prelude.general.elaborate sharedSnippet = .ok e' := ⟨_, rfl⟩
  obtain ⟨b, hb, hsecond, hthird, hfirst⟩ : ∃ b, Blueprint.ofTerm hiddenSnippet .empty = .ok b ∧
      (∃ f, b.fragments.get? 6 = some f ∧ f.fills = some 13) ∧
      (∃ f, b.fragments.get? 10 = some f ∧ f.fills = some 13) ∧
      (b.fragments.get? 2).map (·.fills) = some none :=
    ⟨_, rfl, ⟨_, rfl, rfl⟩, ⟨_, rfl, rfl⟩, rfl⟩
  have hids : hiddenSnippet.ids.Nodup := by decide
  have hids' : sharedSnippet.ids.Nodup := by decide
  have hfills := (snippets_linked_exactly _ hiddenSnippet e .empty hids he).2 b hb
  have hmisuses := (snippets_linked_exactly _ sharedSnippet e' .empty hids' he').1
  refine ⟨e, e', b, hids, he, hb, (hfills 6 13).1 hsecond, (hfills 10 13).1 hthird, fun hgiven => ?_, hids', he',
    hmisuses.1 ⟨_, _, rfl⟩⟩
  rcases (hfills 2 13).2 hgiven with ⟨f, hf, hhole⟩
  rw [hf] at hfirst
  cases hhole.symm.trans (Option.some.inj hfirst)

end Multistage
