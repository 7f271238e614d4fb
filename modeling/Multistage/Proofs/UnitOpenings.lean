import Multistage.Proofs.OwnedEscapes

/-!
# How units are opened

A quote opens a fragment and a function outside quotes opens a procedure, in the unit around it. Both kinds
are opened by the same walk, so they are treated as one here: a placement is a pair of units, the second
directly inside the first. `Position.along` is where the walk is after a path from the root, and
`Term.openings` lists what is opened at each node, given the path to it.

Main statements: `Term.openings_findings`, the walk opens just these units; `Term.grows_root`, in a program
with different identities each unit is placed once, in one that is there by then.
-/

namespace Multistage

/-! ## Positions along paths -/

/-- The units that are open at a position, innermost first, up to the innermost procedure. -/
def Position.units (position : Position) : List Home :=
  position.fragments.map .fragment ++ [.procedure position.procedure]

theorem Position.home_mem_units (position : Position) : position.home ∈ position.units := by
  unfold Position.home Position.units
  cases position.fragments with
  | nil => exact List.mem_singleton.2 rfl
  | cons id outer => exact List.mem_cons_self

/-- The unit at a position is a fragment if a quote is open there. -/
theorem Position.home_eq_fragment_iff {position : Position} {id : NodeId} :
    position.home = .fragment id ↔ position.fragments.head? = some id := by
  unfold Position.home
  cases position.fragments <;> simp

/-- The position inside a node. -/
def Term.positionInside (position : Position) : Term → Position
  | .quote site .. => position.quoted site.id
  | .escape .. => { position with fragments := position.fragments.tail }
  | .lambda site .. => position.called site.id
  | _ => position

/-- The position at the end of a path from the root. -/
def Position.along (root : NodeId) (path : List Term) : Position :=
  path.foldl (fun position node => node.positionInside position) ⟨root, []⟩

theorem Position.along_concat (root : NodeId) (path : List Term) (t : Term) :
    Position.along root (path ++ [t]) = t.positionInside (Position.along root path) :=
  List.foldl_concat ..

theorem Term.fragments_positionInside (position : Position) (t : Term) :
    (t.positionInside position).fragments = t.openInside position.fragments := by
  cases t with
  | lambda site params body => exact position.fragments_called site.id
  | _ => rfl

theorem Position.fragments_along (root : NodeId) (path : List Term) :
    (Position.along root path).fragments = openQuotes path :=
  (List.foldl_hom Position.fragments fun position node => (node.fragments_positionInside position).symm).symm

/-! ## What a program opens -/

/-- Whether a finding starts a unit. -/
def Finding.opens : Finding → Bool
  | .fragment .. | .procedure .. => true
  | _ => false

namespace Term

/-- The unit that starts at a node. -/
def openingAt (position : Position) : Term → List Finding
  | .quote site label snippet body =>
    [.fragment position { id := site.id, body, label, snippet, parent := position.fragments.head? }]
  | .lambda site params body => procedureAt site params body position
  | _ => []

/-- The units that start in a term at the end of a path from the root. -/
def openings (root : NodeId) (t : Term) (above : List Term) : List Finding :=
  (t.lineages above).flatMap fun e => e.2.openingAt (Position.along root e.1)

theorem openings_eq (root : NodeId) (t : Term) (above : List Term) :
    t.openings root above = t.openingAt (Position.along root above) ++
      t.children.flatMap fun child => child.openings root (above ++ [t]) := by
  rw [openings, lineages_eq, List.flatMap_cons, List.flatMap_assoc]
  rfl

variable {t : Term} {root : NodeId} {above : List Term}

/-- Where escapes are inside quotes, those of the parts are inside the quotes that are open there. -/
theorem EscapesInside.along {child : Term} (h : t.EscapesInside (openQuotes above).length)
    (hchild : child ∈ t.children) : child.EscapesInside (openQuotes (above ++ [t])).length := by
  rw [openQuotes_concat, (openBelow_eq h).2]
  exact h.child hchild

theorem filter_opens_givenTo (definition : Option NodeId) : (t.givenTo definition).filter Finding.opens = [] := by
  unfold givenTo
  split <;> rfl

theorem filter_opens_procedureAt (position : Position) (site : Site) (params : List Param) :
    (procedureAt site params t position).filter Finding.opens = procedureAt site params t position := by
  unfold procedureAt
  split <;> rfl

variable (root) in
/-- Among the findings, those that start units are found by the path alone. -/
theorem openings_findings (h : t.EscapesInside (openQuotes above).length) (scope : Scope NodeId) :
    (t.findings (Position.along root above) scope).filter Finding.opens = t.openings root above := by
  -- the path gives the position of each part; that the scopes differ does not matter to openings
  induction t generalizing above scope with
  | literal | lookup | host | held => rfl
  | seq s l r ihl ihr | binary s op l r ihl ihr =>
    have hl := ihl (h.along (List.mem_pair.2 (.inl rfl))) scope
    have hr := ihr (h.along (List.mem_pair.2 (.inr rfl))) (l.scopeAfter scope)
    rw [Position.along_concat] at hl hr
    rw [findings, List.filter_append, openings_eq, children, List.flatMap_cons, List.flatMap_singleton, ← hl, ← hr]
    rfl
  | define s name value ih | assign s name value ih =>
    -- after the value a name or a snippet is found, and neither starts a unit
    have hv := ih (h.along (List.mem_singleton.2 rfl)) scope
    rw [Position.along_concat] at hv
    rw [findings, List.filter_append, openings_eq, children, List.flatMap_singleton, ← hv,
      List.filter_cons_of_neg (by simp [Finding.opens]), filter_opens_givenTo, List.append_nil]
    rfl
  | unary s op u ih | run s u ih =>
    have hu := ih (h.along (List.mem_singleton.2 rfl)) scope
    rw [Position.along_concat] at hu
    rw [findings, openings_eq, children, List.flatMap_singleton, ← hu]
    rfl
  | quote s label snippet body ih =>
    have hb := ih (h.along (List.mem_singleton.2 rfl)) scope
    rw [Position.along_concat] at hb
    rw [findings, openings_eq, children, List.flatMap_singleton, ← hb]
    rfl
  | escape s kind body ih =>
    have hb := ih (h.along (List.mem_singleton.2 rfl)) scope
    rw [Position.along_concat] at hb
    rw [findings, openings_eq, children, List.flatMap_singleton, ← hb]
    cases hquotes : (Position.along root above).fragments with
    | nil =>
      -- an escape that is outside of quotes
      have hopen := (escapesInside_iff.1 h).1 rfl
      rw [← Position.fragments_along root, hquotes] at hopen
      cases hopen
    | cons owner outer =>
      simp only [positionInside, hquotes, List.tail_cons]
      rfl
  | lambda s params body ih =>
    have hb := ih (h.along (List.mem_singleton.2 rfl))
      (scope.extendAll (params.map fun param => (param.name, param.id)))
    rw [Position.along_concat] at hb
    -- a parameter is a definition, and starts no unit
    have hparams : (params.map fun param =>
        Finding.definition ((Position.along root above).called s.id).home param.id).filter Finding.opens = [] := by
      rw [List.filter_eq_nil_iff]
      intro x hx
      rcases List.mem_map.1 hx with ⟨param, -, rfl⟩
      exact Bool.false_ne_true
    rw [findings, List.filter_append, List.filter_append, hparams, List.append_nil, filter_opens_procedureAt,
      openings_eq, children, List.flatMap_singleton, ← hb]
    rfl
  | call s callee args ihf iha =>
    have hf := ihf (h.along List.mem_cons_self) scope
    have ha : (findingsAll args (Position.along root above) scope).filter Finding.opens =
        args.flatMap fun arg => arg.openings root (above ++ [.call s callee args]) := by
      rw [findingsAll_eq, List.filter_flatMap]
      refine List.flatMap_congr fun arg harg => ?_
      have harg' := iha arg harg (h.along (List.mem_cons_of_mem _ harg)) scope
      rw [Position.along_concat] at harg'
      exact harg'
    rw [Position.along_concat] at hf
    rw [findings, List.filter_append, ha, openings_eq, children, List.flatMap_cons, ← hf]
    rfl

end Term

/-! ## Placements in order -/

/-- The identity of a unit. -/
def Home.id : Home → NodeId
  | .procedure id | .fragment id => id

/-- The unit that a finding starts, as the second of a pair, and the unit around it. -/
def Finding.placement? : Finding → Option (Home × Home)
  | .fragment position f => some (position.home, .fragment f.id)
  | .procedure parent r => some (.procedure parent, .procedure r.id)
  | _ => none

/-- Units are placed one after another, each once, and in one that is known by then. Where none is known, a
procedure can also be placed in itself. -/
def Grows : (known : List Home) → List (Home × Home) → Prop
  | _, [] => True
  | known, (outer, inner) :: rest =>
    inner ∉ known ∧ (outer ∈ known ∨ known = [] ∧ ∃ id, outer = .procedure id ∧ inner = .procedure id) ∧
      Grows (known ++ [inner]) rest

theorem grows_append {known : List Home} {xs ys : List (Home × Home)} :
    Grows known (xs ++ ys) ↔ Grows known xs ∧ Grows (known ++ xs.map (·.2)) ys := by
  induction xs generalizing known with
  | nil => simp [Grows]
  | cons x rest ih => simp [Grows, ih, and_assoc]

/-- A unit is placed once, and not if it was known. -/
theorem Grows.nodup {known : List Home} {xs : List (Home × Home)} (h : Grows known xs) :
    (xs.map (·.2)).Nodup ∧ ∀ x ∈ xs, x.2 ∉ known := by
  induction xs generalizing known with
  | nil => exact ⟨List.nodup_nil, List.forall_mem_nil _⟩
  | cons x rest ih =>
    obtain ⟨hnew, -, hrest⟩ := h
    obtain ⟨hnodup, hfresh⟩ := ih hrest
    constructor
    · rw [List.map_cons, List.nodup_cons]
      refine ⟨fun hmem => ?_, hnodup⟩
      rcases List.mem_map.1 hmem with ⟨y, hy, heq⟩
      exact hfresh y hy (heq ▸ List.mem_append_right _ (List.mem_singleton.2 rfl))
    · refine List.forall_mem_cons.2 ⟨hnew, fun y hy hmem => ?_⟩
      exact hfresh y hy (List.mem_append_left _ hmem)

/-- What a unit is placed in is known, or is placed before it, or is the unit itself. -/
theorem Grows.sublist {known : List Home} {xs : List (Home × Home)} {outer inner : Home} (h : Grows known xs)
    (hmem : (outer, inner) ∈ xs) : outer ∈ known ∨ (∃ id, outer = .procedure id ∧ inner = .procedure id) ∨
      [outer, inner].Sublist (xs.map (·.2)) := by
  induction xs generalizing known with
  | nil => cases hmem
  | cons x rest ih =>
    obtain ⟨-, houter, hrest⟩ := h
    rcases List.mem_cons.1 hmem with rfl | hmem
    · exact houter.imp_right fun hself => .inl hself.2
    · rcases ih hrest hmem with hknown | hself | hsublist
      · rcases List.mem_append.1 hknown with hknown | hx
        · exact .inl hknown
        · rw [List.mem_singleton.1 hx]
          have hin : inner ∈ rest.map (·.2) := List.mem_map_of_mem hmem
          exact .inr (.inr ((List.singleton_sublist.2 hin).cons_cons x.2))
      · exact .inr (.inl hself)
      · exact .inr (.inr (hsublist.cons x.2))

/-- What holds of the known units, or else of the first one, and goes over from each unit to those that are
placed in it holds of all. -/
theorem Grows.induction {known : List Home} {xs : List (Home × Home)} {P : Home → Prop} (h : Grows known xs)
    (hknown : ∀ u ∈ known, P u) (hfirst : known = [] → ∀ x, xs.head? = some x → P x.2)
    (hplaced : ∀ x ∈ xs, P x.1 → P x.2) : ∀ x ∈ xs, P x.2 := by
  induction xs generalizing known with
  | nil => exact List.forall_mem_nil _
  | cons x rest ih =>
    obtain ⟨-, houter, hrest⟩ := h
    obtain ⟨hhead, htail⟩ := List.forall_mem_cons.1 hplaced
    have hx : P x.2 := by
      rcases houter with houter | ⟨hnone, -⟩
      · exact hhead (hknown _ houter)
      · exact hfirst hnone x rfl
    refine List.forall_mem_cons.2 ⟨hx, ih hrest (fun u hu => ?_) (fun hnone => ?_) htail⟩
    · rcases List.mem_append.1 hu with hu | hu
      · exact hknown u hu
      · rw [List.mem_singleton.1 hu]
        exact hx
    · exact absurd hnone (List.concat_ne_nil _ _)

namespace Term

/-- The units that are placed by a term at the end of a path from the root. -/
def placements (root : NodeId) (t : Term) (above : List Term) : List (Home × Home) :=
  (t.openings root above).filterMap Finding.placement?

/-- The unit that is placed at a node. -/
def placementAt (position : Position) : Term → List (Home × Home)
  | .quote site .. => [(position.home, .fragment site.id)]
  | .lambda site .. =>
    if position.fragments = [] then [(.procedure position.procedure, .procedure site.id)] else []
  | _ => []

/-- A node places the unit that it opens. -/
theorem placements_openingAt (t : Term) (position : Position) :
    (t.openingAt position).filterMap Finding.placement? = t.placementAt position := by
  cases t with
  | lambda site params body =>
    rw [openingAt, procedureAt, placementAt]
    cases position.fragments <;> rfl
  | _ => rfl

theorem placements_eq (root : NodeId) (t : Term) (above : List Term) :
    t.placements root above = t.placementAt (Position.along root above) ++
      t.children.flatMap fun child => child.placements root (above ++ [t]) := by
  rw [placements, openings_eq, List.filterMap_append, placements_openingAt, List.filterMap_flatMap]
  rfl

variable {t : Term} {root : NodeId} {above : List Term} {known : List Home}

/-- A unit that is placed at a node has its identity. -/
theorem id_of_placementAt {position : Position} {x : Home × Home} (h : x ∈ t.placementAt position) :
    x.2.id = t.id := by
  unfold placementAt at h
  split at h
  · cases List.mem_singleton.1 h
    rfl
  · split at h
    · cases List.mem_singleton.1 h
      rfl
    · cases h
  · cases h

/-- Units have the identities of nodes. -/
theorem id_mem_of_placements {x : Home × Home} (h : x ∈ t.placements root above) : x.2.id ∈ t.ids := by
  induction t using induct_children generalizing above with
  | step t ih =>
    rw [placements_eq] at h
    rw [ids_eq]
    rcases List.mem_append.1 h with h | h
    · rw [id_of_placementAt h]
      exact List.mem_cons_self
    · rcases List.mem_flatMap.1 h with ⟨child, hchild, h⟩
      exact List.mem_cons_of_mem _ (List.mem_flatMap.2 ⟨child, hchild, ih child hchild h⟩)

/-- After what is placed at a node itself, all units that are open inside it are known. -/
theorem units_positionInside {position : Position} (h : position.units ⊆ known) :
    (t.positionInside position).units ⊆ known ++ (t.placementAt position).map (·.2) := by
  have hmore : position.units ⊆ known ++ (t.placementAt position).map (·.2) :=
    List.Subset.trans h (List.subset_append_left _ _)
  have hprocedure : Home.procedure position.procedure ∈ known ++ (t.placementAt position).map (·.2) :=
    hmore (List.mem_append_right _ (List.mem_singleton.2 rfl))
  cases t with
  | quote site label snippet body =>
    -- the quote places its fragment, and keeps what is open
    refine List.cons_subset.2 ⟨?_, hmore⟩
    exact List.mem_append_right _ (List.mem_singleton.2 rfl)
  | escape site kind body =>
    intro u hu
    rcases List.mem_append.1 hu with hu | hu
    · rcases List.mem_map.1 hu with ⟨id, hid, rfl⟩
      -- an escape closes a fragment
      refine hmore (List.mem_append_left _ (List.mem_map_of_mem ?_))
      exact List.mem_of_mem_tail hid
    · rw [List.mem_singleton.1 hu]
      exact hprocedure
  | lambda site params body =>
    cases hfragments : position.fragments with
    | nil =>
      -- the function is the only unit that is open in it
      intro u hu
      simp only [positionInside, Position.called, Position.units, hfragments, List.map_nil, List.nil_append] at hu
      rw [List.mem_singleton.1 hu, placementAt, if_pos hfragments]
      exact List.mem_append_right _ (List.mem_singleton.2 rfl)
    | cons owner outer =>
      simp only [positionInside, Position.called, hfragments]
      exact hmore
  | _ => exact hmore

/-- The parts of a term place their units one after another. -/
theorem grows_parts {ts : List Term} (hids : (ts.flatMap ids).Nodup)
    (hnew : ∀ u ∈ known, u.id ∉ ts.flatMap ids) (hopen : (Position.along root above).units ⊆ known)
    (ih : ∀ t ∈ ts, ∀ {known}, t.ids.Nodup → (∀ u ∈ known, u.id ∉ t.ids) →
      (Position.along root above).units ⊆ known → Grows known (t.placements root above)) :
    Grows known (ts.flatMap fun t => t.placements root above) := by
  induction ts generalizing known with
  | nil => trivial
  | cons t rest ihrest =>
    rw [List.flatMap_cons] at hids hnew ⊢
    obtain ⟨hhead, htail, hdisjoint⟩ := List.nodup_append.1 hids
    rw [grows_append]
    constructor
    · refine ih t List.mem_cons_self hhead (fun u hu hid => ?_) hopen
      exact hnew u hu (List.mem_append_left _ hid)
    · refine ihrest htail (fun u hu hid => ?_) (List.Subset.trans hopen (List.subset_append_left _ _))
        fun t' ht' => ih t' (List.mem_cons_of_mem _ ht')
      rcases List.mem_append.1 hu with hu | hu
      · exact hnew u hu (List.mem_append_right _ hid)
      · rcases List.mem_map.1 hu with ⟨x, hx, rfl⟩
        exact hdisjoint _ (id_mem_of_placements hx) _ hid rfl

/-- Below a node, units are placed in order if those that are open inside it are known. -/
theorem grows_children (hids : (t.children.flatMap ids).Nodup)
    (hnew : ∀ u ∈ known, u.id ∉ t.children.flatMap ids)
    (hopen : (t.positionInside (Position.along root above)).units ⊆ known)
    (ih : ∀ child ∈ t.children, ∀ {above known}, child.ids.Nodup → (∀ u ∈ known, u.id ∉ child.ids) →
      (Position.along root above).units ⊆ known → Grows known (child.placements root above)) :
    Grows known (t.children.flatMap fun child => child.placements root (above ++ [t])) := by
  rw [← Position.along_concat] at hopen
  exact grows_parts hids hnew hopen fun child hchild => ih child hchild

/-- A term with different identities, none of which is known, places its units in order if the units around
it are known. -/
theorem grows_placements (hids : t.ids.Nodup) (hnew : ∀ u ∈ known, u.id ∉ t.ids)
    (hopen : (Position.along root above).units ⊆ known) : Grows known (t.placements root above) := by
  induction t using induct_children generalizing above known with
  | step t ih =>
    rw [ids_eq, List.nodup_cons] at hids
    rw [placements_eq, grows_append]
    constructor
    · have hself : ∀ u ∈ known, u.id ≠ t.id := by
        intro u hu heq
        refine hnew u hu ?_
        rw [ids_eq, heq]
        exact List.mem_cons_self
      unfold placementAt
      split
      · exact ⟨fun hmem => hself _ hmem rfl, .inl (hopen (Position.home_mem_units _)), trivial⟩
      · split
        · have hprocedure := hopen (List.mem_append_right _ (List.mem_singleton.2 rfl))
          exact ⟨fun hmem => hself _ hmem rfl, .inl hprocedure, trivial⟩
        · trivial
      · trivial
    · refine grows_children hids.2 (fun u hu hid => ?_) (units_positionInside hopen) ih
      rcases List.mem_append.1 hu with hu | hu
      · refine hnew u hu ?_
        rw [ids_eq]
        exact List.mem_cons_of_mem _ hid
      · rcases List.mem_map.1 hu with ⟨x, hx, rfl⟩
        rw [id_of_placementAt hx] at hid
        exact hids.1 hid

/-- The units that are there before the walk: the main procedure. A function as the root starts over under
the same identity. -/
def rootUnits (t : Term) : List Home := if t.tag = .lambda then [] else [.procedure t.id]

/-- A program with different identities places its units in order. -/
theorem grows_root (hids : t.ids.Nodup) : Grows t.rootUnits (t.placements t.id []) := by
  rw [ids_eq, List.nodup_cons] at hids
  have hbelow : ∀ {known : List Home}, (∀ u ∈ known, u.id = t.id) →
      (t.positionInside (Position.along t.id [])).units ⊆ known →
      Grows known (t.children.flatMap fun child => child.placements t.id ([] ++ [t])) := by
    intro known hknown hopen
    refine grows_children hids.2 (fun u hu hid => ?_) hopen fun child _ => grows_placements
    rw [hknown u hu] at hid
    exact hids.1 hid
  rw [placements_eq, grows_append]
  have hall : ∀ u ∈ t.rootUnits ++ (t.placementAt (Position.along t.id [])).map (·.2), u.id = t.id := by
    intro u hu
    rcases List.mem_append.1 hu with hu | hu
    · unfold rootUnits at hu
      split at hu
      · cases hu
      · rw [List.mem_singleton.1 hu]
        rfl
    · rcases List.mem_map.1 hu with ⟨x, hx, rfl⟩
      exact id_of_placementAt hx
  cases t with
  | lambda site params body =>
    refine ⟨⟨List.not_mem_nil, .inr ⟨rfl, _, rfl, rfl⟩, trivial⟩, hbelow hall ?_⟩
    exact List.Subset.refl _
  | quote site label snippet body =>
    refine ⟨⟨?_, .inl (List.mem_singleton.2 rfl), trivial⟩, hbelow hall ?_⟩
    · simp [rootUnits, tag]
    · exact units_positionInside (List.Subset.refl _)
  | _ => exact ⟨trivial, hbelow hall (units_positionInside (List.Subset.refl _))⟩

end Term

end Multistage
