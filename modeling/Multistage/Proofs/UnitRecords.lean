import Multistage.Proofs.UnitOpenings

/-!
# The records of units

The survey of a program has one record for each unit. A finding that starts no unit leaves the shape of all
records alone (`Survey.sameShape_note`), and one that does adds its placement to those that the records list
(`Survey.perm_placements_note`) and its own record (`Survey.Heads.note`).

Main statements, for a program that is split into units: `Blueprint.perm_placements`, the records list just
the placements of the program; `Blueprint.fragment_iff`, `Blueprint.procedure_iff` and `Blueprint.main_header`,
what stands in the record of each unit.
-/

namespace Multistage

/-! ## The shape of records -/

/-- A record with nothing but its code and its place among the fragments. -/
def Fragment.shape (f : Fragment) : Fragment :=
  { id := f.id, body := f.body, label := f.label, snippet := f.snippet, parent := f.parent, nested := f.nested }

/-- A record with nothing but its code and its place among the units. -/
def Procedure.shape (r : Procedure) : Procedure := { r with free := [], bound := [] }

namespace Survey

/-- The records of both surveys have the same shapes. -/
structure SameShape (s s' : Survey) : Prop where
  fragments : s'.fragments.map (fun _ f => f.shape) = s.fragments.map fun _ f => f.shape
  procedures : s'.procedures.map (fun _ r => r.shape) = s.procedures.map fun _ r => r.shape
  order : s'.order = s.order

theorem SameShape.changeFragment {s s' : Survey} (h : s.SameShape s') (key : NodeId)
    {g : Fragment → Fragment} (hg : ∀ f, (g f).shape = f.shape) : s.SameShape (s'.changeFragment key g) where
  fragments := (Table.map_modify key fun _ f => hg f).trans h.fragments
  procedures := h.procedures
  order := h.order

theorem SameShape.changeProcedure {s s' : Survey} (h : s.SameShape s') (key : NodeId)
    {g : Procedure → Procedure} (hg : ∀ r, (g r).shape = r.shape) : s.SameShape (s'.changeProcedure key g) where
  fragments := h.fragments
  procedures := (Table.map_modify key fun _ r => hg r).trans h.procedures
  order := h.order

/-- A finding that starts no unit changes no shape. -/
theorem sameShape_note (s : Survey) {x : Finding} (hx : x.opens = false) : s.SameShape (s.note x) := by
  cases x with
  | definition home d =>
    -- the tables of names are no part of the shape, and neither are the names of a record
    have hsame : s.SameShape { s with homes := s.homes.insert d home } := ⟨rfl, rfl, rfl⟩
    cases home with
    | procedure p =>
      apply hsame.changeProcedure p
      intro r
      rfl
    | fragment key =>
      apply hsame.changeFragment key
      intro f
      rfl
  | use home user definition =>
    cases definition with
    | none => exact ⟨rfl, rfl, rfl⟩
    | some definition =>
      have hsame : s.SameShape { s with uses := s.uses.insert user definition } := ⟨rfl, rfl, rfl⟩
      simp only [note, use]
      split
      · exact hsame
      · cases home with
        | procedure p =>
          apply hsame.changeProcedure p
          intro r
          rfl
        | fragment key =>
          apply hsame.changeFragment key
          intro f
          rfl
  | snippet => exact ⟨rfl, rfl, rfl⟩
  | escape kind record =>
    apply SameShape.changeFragment ⟨rfl, rfl, rfl⟩ record.owner
    intro f
    -- an escape is listed in one of three fields, none of which says how units are nested
    cases kind <;> rfl
  | fragment | procedure => cases hx

end Survey

/-! ## Placements in the records -/

/-- The units that a fragment lists. -/
def Fragment.placements (f : Fragment) (id : NodeId) : List (Home × Home) :=
  f.nested.map fun inner => (.fragment id, .fragment inner)

/-- The units that a procedure lists. -/
def Procedure.placements (r : Procedure) (id : NodeId) : List (Home × Home) :=
  r.quotes.map (fun inner => (.procedure id, .fragment inner)) ++
    r.children.map fun inner => (.procedure id, .procedure inner)

/-- A unit starts with a record that lists no units. -/
def Finding.StartsEmpty : Finding → Prop
  | .fragment _ f => f.nested = []
  | .procedure _ r => r.quotes = [] ∧ r.children = []
  | _ => True

namespace Survey

/-- All units that the records list. -/
def placements (s : Survey) : List (Home × Home) :=
  s.procedures.contents (fun id r => r.placements id) ++ s.fragments.contents fun id f => f.placements id

/-- What the record of a unit lists, if there is one. -/
def listed? (s : Survey) : Home → Option (List (Home × Home))
  | .procedure id => (s.procedures.get? id).map fun r => r.placements id
  | .fragment id => (s.fragments.get? id).map fun f => f.placements id

/-- The units that are known have records, and only their records list units. -/
structure Knows (s : Survey) (known : List Home) : Prop where
  listed : ∀ u ∈ known, s.listed? u ≠ none
  empty : ∀ u ∉ known, ∀ list, s.listed? u = some list → list = []

variable {s s' : Survey} {x : Finding} {known : List Home} {u : Home}

theorem SameShape.placements_eq (h : s.SameShape s') : s'.placements = s.placements := by
  have hfragments := congrArg (Table.contents fun id f => Fragment.placements f id) h.fragments
  have hprocedures := congrArg (Table.contents fun id r => Procedure.placements r id) h.procedures
  rw [Table.contents_map, Table.contents_map] at hfragments hprocedures
  rw [placements, placements]
  exact congrArg₂ (· ++ ·) hprocedures hfragments

/-- In the same shape the same units are listed. -/
theorem SameShape.listed?_eq (h : s.SameShape s') (u : Home) : s'.listed? u = s.listed? u := by
  cases u with
  | procedure id =>
    have hget := congrArg (fun t => (t.get? id).map fun r => Procedure.placements r id) h.procedures
    simp only [Table.get?_map, Option.map_map] at hget
    exact hget
  | fragment id =>
    have hget := congrArg (fun t => (t.get? id).map fun f => Fragment.placements f id) h.fragments
    simp only [Table.get?_map, Option.map_map] at hget
    exact hget

/-- A finding changes what is listed only for the unit that it starts and the one around it. -/
theorem listed?_note_of_ne (h : ∀ p, x.placement? = some p → u ≠ p.1 ∧ u ≠ p.2) :
    (s.note x).listed? u = s.listed? u := by
  cases hopens : x.opens with
  | false => exact (sameShape_note s hopens).listed?_eq u
  | true =>
    cases x with
    | fragment position f =>
      obtain ⟨houter, hinner⟩ := h _ rfl
      simp only [note, openFragment]
      cases hhome : position.home <;> cases u <;>
        simp_all [listed?, changeProcedure, changeFragment, Ne.symm]
    | procedure parent r =>
      obtain ⟨houter, hinner⟩ := h _ rfl
      simp only [note, openProcedure]
      cases u <;> simp_all [listed?, changeProcedure, Ne.symm]
    | _ => cases hopens

/-- Records of procedures are only ever added, where the walk starts them. -/
theorem get?_procedures_note_eq_none_iff {id : NodeId} : (s.note x).procedures.get? id = none ↔
    s.procedures.get? id = none ∧ ∀ parent r, x = .procedure parent r → r.id ≠ id := by
  have hchange : ∀ (s : Survey) (key : NodeId) (g : Procedure → Procedure),
      (s.changeProcedure key g).procedures.get? id = none ↔ s.procedures.get? id = none := by
    intro s key g
    rw [changeProcedure, Table.get?_modify]
    split <;> simp
  cases x with
  | definition home d => cases home <;> simp [note, define, hchange, changeFragment]
  | use home user definition =>
    cases definition with
    | none => simp [note]
    | some definition =>
      simp only [note, use]
      split
      · simp
      · cases home <;> simp [hchange, changeFragment]
  | snippet | escape => simp [note, addSnippet, addEscape, changeFragment]
  | fragment position f =>
    simp only [note, openFragment]
    cases position.home <;> simp [hchange, changeFragment]
  | procedure parent r =>
    rw [note, openProcedure, hchange, Table.get?_insert]
    by_cases hid : r.id = id <;> simp [hid]

/-- No record is taken away, and a unit that starts has one. -/
theorem listed?_note_ne_none (h : s.listed? u ≠ none ∨ ∃ outer, x.placement? = some (outer, u)) :
    (s.note x).listed? u ≠ none := by
  cases u with
  | procedure id =>
    rw [listed?, ne_eq, Option.map_eq_none_iff] at h ⊢
    rw [get?_procedures_note_eq_none_iff]
    rintro ⟨hnone, hstarts⟩
    rcases h with hsome | ⟨outer, hplaced⟩
    · exact hsome hnone
    · cases x with
      | procedure parent r =>
        cases hplaced
        exact hstarts parent r rfl rfl
      | _ => cases hplaced
  | fragment id =>
    rw [listed?, ne_eq, Option.map_eq_none_iff] at h ⊢
    rw [get?_note_eq_none_iff]
    rintro ⟨hnone, hstarts⟩
    rcases h with hsome | ⟨outer, hplaced⟩
    · exact hsome hnone
    · cases x with
      | fragment position f =>
        cases hplaced
        exact hstarts rfl
      | _ => cases hplaced

/-- Starting a unit adds its placement to those that the records list. -/
theorem perm_placements_note (hknows : s.Knows known) (hgrows : Grows known x.placement?.toList)
    (hstart : x.StartsEmpty) : (s.note x).placements.Perm (x.placement?.toList ++ s.placements) := by
  cases hopens : x.opens with
  | false =>
    -- only findings that start a unit have a placement
    have hnone : x.placement? = none := by cases x <;> first | rfl | cases hopens
    rw [(sameShape_note s hopens).placements_eq, hnone]
    exact .refl _
  | true =>
    cases x with
    | fragment position f =>
      obtain ⟨hnew, houter, -⟩ := hgrows
      -- the new record lists nothing, and takes the place of none that did
      have hinsert : ((s.fragments.insert f.id f).contents fun id f => f.placements id).Perm
          (s.fragments.contents fun id f => f.placements id) := by
        have hperm := Table.perm_contents_insert (fun id f => Fragment.placements f id) (k := f.id) (v := f)
          (t := s.fragments) fun old hold => hknows.empty _ hnew _ (by rw [listed?, hold]; rfl)
        have hempty : f.placements f.id = [] := by rw [Fragment.placements, hstart, List.map_nil]
        rwa [hempty, List.nil_append] at hperm
      simp only [note, openFragment, Finding.placement?]
      -- the unit around it has a record, which gets one more entry
      have houter : s.listed? position.home ≠ none := by
        rcases houter with houter | ⟨-, id, -, hinner⟩
        · exact hknows.listed _ houter
        · cases hinner
      -- a procedure lists the fragment among its quotes, a fragment among those nested in it
      cases hhome : position.home with
      | procedure p =>
        rw [hhome, listed?, ne_eq, Option.map_eq_none_iff] at houter
        have hadd := Table.perm_contents_modify (fun id r => Procedure.placements r id)
          [(.procedure p, .fragment f.id)] houter (g := fun r => { r with quotes := r.quotes ++ [f.id] })
          fun r => by simp [Procedure.placements, List.perm_middle]
        have hboth := hadd.append hinsert
        rwa [List.append_assoc] at hboth
      | fragment key =>
        rw [hhome, listed?, ne_eq, Option.map_eq_none_iff] at houter
        have hkey : (s.fragments.insert f.id f).get? key ≠ none := by
          rw [Table.get?_insert]
          split <;> simp [houter]
        have hadd := Table.perm_contents_modify (fun id f => Fragment.placements f id)
          [(.fragment key, .fragment f.id)] hkey (g := fun r => { r with nested := r.nested ++ [f.id] })
          fun f => by simp [Fragment.placements]
        have hboth := (hadd.trans (hinsert.append_left _)).append_left
          (s.procedures.contents fun id r => r.placements id)
        exact hboth.trans (List.perm_append_comm_assoc _ _ _)
    | procedure parent r =>
      obtain ⟨hnew, houter, -⟩ := hgrows
      have hinsert : ((s.procedures.insert r.id r).contents fun id r => r.placements id).Perm
          (s.procedures.contents fun id r => r.placements id) := by
        have hperm := Table.perm_contents_insert (fun id r => Procedure.placements r id) (k := r.id) (v := r)
          (t := s.procedures) fun old hold => hknows.empty _ hnew _ (by rw [listed?, hold]; rfl)
        have hempty : r.placements r.id = [] := by rw [Procedure.placements, hstart.1, hstart.2]; rfl
        rwa [hempty, List.nil_append] at hperm
      -- the parent has a record: an older one, or the new one if the procedure is its own parent
      have hparent : (s.procedures.insert r.id r).get? parent ≠ none := by
        rw [Table.get?_insert]
        split
        · simp
        · next hne =>
          rcases houter with houter | ⟨-, id, hparent, hself⟩
          · have hlisted := hknows.listed _ houter
            rwa [listed?, ne_eq, Option.map_eq_none_iff] at hlisted
          · cases hparent
            cases hself
            exact absurd rfl hne
      have hadd := Table.perm_contents_modify (fun id r => Procedure.placements r id)
        [(.procedure parent, .procedure r.id)] hparent
        (g := fun r' => { r' with children := r'.children ++ [r.id] }) fun r' => by
          rw [Procedure.placements, Procedure.placements, List.map_append, ← List.append_assoc]
          exact List.perm_append_comm
      exact (hadd.trans (hinsert.append_left _)).append_right _
    | _ => cases hopens

/-- A unit that starts is known from then on. -/
theorem Knows.note (h : s.Knows known) (hgrows : Grows known x.placement?.toList) :
    (s.note x).Knows (known ++ x.placement?.toList.map (·.2)) where
  listed := by
    intro u hu
    apply listed?_note_ne_none
    rcases List.mem_append.1 hu with hu | hu
    · exact .inl (h.listed u hu)
    · rcases List.mem_map.1 hu with ⟨⟨outer, inner⟩, hplaced, rfl⟩
      exact .inr ⟨outer, Option.mem_toList.1 hplaced⟩
  empty := by
    intro u hu list hlist
    rw [List.mem_append, not_or] at hu
    -- the unit is neither the one that starts nor the one around it
    have hother : ∀ p, x.placement? = some p → u ≠ p.1 ∧ u ≠ p.2 := by
      rintro ⟨outer, inner⟩ hplaced
      rw [hplaced] at hgrows hu
      have hinner : u ≠ inner := fun heq => hu.2 (List.mem_singleton.2 heq)
      refine ⟨fun houter => ?_, hinner⟩
      rcases hgrows.2.1 with hknown | ⟨-, id, hself, hself'⟩
      · exact hu.1 (houter ▸ hknown)
      · exact hinner (houter.trans (hself.trans hself'.symm))
    rw [listed?_note_of_ne hother] at hlist
    exact h.empty u hu.1 list hlist

/-- Units that start in order add their placements. -/
theorem perm_placements_noteAll {xs : List Finding} (hknows : s.Knows known)
    (hgrows : Grows known (xs.filterMap Finding.placement?)) (hstart : ∀ x ∈ xs, x.StartsEmpty) :
    (s.noteAll xs).placements.Perm (xs.filterMap Finding.placement? ++ s.placements) := by
  induction xs generalizing s known with
  | nil => exact .refl _
  | cons x rest ih =>
    rw [filterMap_cons_toList, grows_append] at hgrows
    obtain ⟨hx, hrest⟩ := List.forall_mem_cons.1 hstart
    have hstep := perm_placements_note hknows hgrows.1 hx
    have hothers := ih (hknows.note hgrows.1) hgrows.2 hrest
    rw [filterMap_cons_toList, List.append_assoc]
    refine hothers.trans ((hstep.append_left _).trans ?_)
    exact List.perm_append_comm_assoc _ _ _

end Survey

/-! ## Heads of records -/

/-- What stands in a record from the start. -/
def Fragment.header (f : Fragment) : Fragment := { f.shape with nested := [] }

/-- What stands in a record from the start. -/
def Procedure.header (r : Procedure) : Procedure := { r.shape with quotes := [], children := [] }

/-- The identity of a fragment. -/
def Home.fragment? : Home → Option NodeId
  | .fragment id => some id
  | .procedure _ => none

/-- The identity of a procedure. -/
def Home.procedure? : Home → Option NodeId
  | .procedure id => some id
  | .fragment _ => none

namespace Finding

/-- The record of a fragment that starts. -/
def fragment? : Finding → Option (NodeId × Fragment)
  | .fragment _ f => some (f.id, f.header)
  | _ => none

/-- The record of a procedure that starts. -/
def procedure? : Finding → Option (NodeId × Procedure)
  | .procedure _ r => some (r.id, r.header)
  | _ => none

/-- Only findings that start units count for what there is of them. -/
theorem filterMap_opens {β : Type} {g : Finding → Option β} (hg : ∀ x, x.opens = false → g x = none)
    (xs : List Finding) : (xs.filter opens).filterMap g = xs.filterMap g := by
  rw [List.filterMap_filter]
  refine List.filterMap_congr fun x _ => ?_
  by_cases hx : x.opens = true
  · simp [hx]
  · rw [Bool.not_eq_true] at hx
    simp [hx, hg x hx]

end Finding

namespace Survey

variable {s s' : Survey} {x : Finding} {fs : List (NodeId × Fragment)} {rs : List (NodeId × Procedure)}

/-- The records are those of given units, and the fragments among these were started in the given order. -/
structure Heads (s : Survey) (fs : List (NodeId × Fragment)) (rs : List (NodeId × Procedure)) : Prop where
  fragment : ∀ id, (s.fragments.get? id).map Fragment.header = (Table.ofList fs).get? id
  procedure : ∀ id, (s.procedures.get? id).map Procedure.header = (Table.ofList rs).get? id
  order : s.order = (fs.map (·.1)).reverse

theorem SameShape.heads (h : s.SameShape s') (hs : s.Heads fs rs) : s'.Heads fs rs where
  fragment id := by
    have hget := congrArg (fun t => (t.get? id).map Fragment.header) h.fragments
    simp only [Table.get?_map, Option.map_map] at hget
    exact hget.trans (hs.fragment id)
  procedure id := by
    have hget := congrArg (fun t => (t.get? id).map Procedure.header) h.procedures
    simp only [Table.get?_map, Option.map_map] at hget
    exact hget.trans (hs.procedure id)
  order := h.order.trans hs.order

/-- What is changed later is not in the head of a record. -/
theorem Heads.changeFragment (h : s.Heads fs rs) (key : NodeId) {g : Fragment → Fragment}
    (hg : ∀ f, (g f).header = f.header) : (s.changeFragment key g).Heads fs rs where
  fragment id := by
    rw [Survey.changeFragment, Table.get?_modify, ← h.fragment id]
    split
    · simp [Function.comp_def, hg]
    · rfl
  procedure := h.procedure
  order := h.order

/-- Lists of a procedure are no part of its header. -/
theorem Heads.changeProcedure (h : s.Heads fs rs) (key : NodeId) {g : Procedure → Procedure}
    (hg : ∀ r, (g r).header = r.header) : (s.changeProcedure key g).Heads fs rs where
  fragment := h.fragment
  procedure id := by
    rw [Survey.changeProcedure, Table.get?_modify, ← h.procedure id]
    split
    · simp [Function.comp_def, hg]
    · rfl
  order := h.order

/-- A unit that starts adds its record. -/
theorem Heads.note (h : s.Heads fs rs) (x : Finding) :
    (s.note x).Heads (fs ++ x.fragment?.toList) (rs ++ x.procedure?.toList) := by
  cases hopens : x.opens with
  | false =>
    have hnone : x.fragment? = none ∧ x.procedure? = none := by
      cases x <;> first | exact ⟨rfl, rfl⟩ | cases hopens
    rw [hnone.1, hnone.2, Option.toList_none, List.append_nil, Option.toList_none, List.append_nil]
    exact (sameShape_note s hopens).heads h
  | true =>
    cases x with
    | fragment position f =>
      -- first the record itself, then the entry in the unit around it, which is no part of a header
      have hinsert : Heads { s with fragments := s.fragments.insert f.id f, order := f.id :: s.order }
          (fs ++ [(f.id, f.header)]) (rs ++ []) := by
        refine ⟨fun id => ?_, fun id => ?_, ?_⟩
        · rw [Table.ofList_concat, Table.get?_insert, Table.get?_insert, ← h.fragment id]
          split <;> rfl
        · rw [List.append_nil]
          exact h.procedure id
        · simp [h.order]
      simp only [Survey.note, openFragment]
      cases position.home with
      | procedure p =>
        apply hinsert.changeProcedure p
        intro r
        rfl
      | fragment key =>
        apply hinsert.changeFragment key
        intro g
        rfl
    | procedure parent r =>
      have hinsert : Heads { s with procedures := s.procedures.insert r.id r }
          (fs ++ []) (rs ++ [(r.id, r.header)]) := by
        refine ⟨fun id => ?_, fun id => ?_, ?_⟩
        · rw [List.append_nil]
          exact h.fragment id
        · rw [Table.ofList_concat, Table.get?_insert, Table.get?_insert, ← h.procedure id]
          split <;> rfl
        · rw [List.append_nil]
          exact h.order
      apply hinsert.changeProcedure parent
      intro r
      rfl
    | _ => cases hopens

/-- The records after a walk are those of the units that it has started. -/
theorem Heads.noteAll (h : s.Heads fs rs) (xs : List Finding) : (s.noteAll xs).Heads
    (fs ++ xs.filterMap Finding.fragment?) (rs ++ xs.filterMap Finding.procedure?) := by
  induction xs generalizing s fs rs with
  | nil =>
    rw [List.filterMap_nil, List.append_nil, List.filterMap_nil, List.append_nil]
    exact h
  | cons x rest ih =>
    rw [filterMap_cons_toList, filterMap_cons_toList, ← List.append_assoc, ← List.append_assoc]
    exact ih (h.note x)

end Survey

/-! ## The units of a program -/

namespace Term

variable {t : Term} {root id : NodeId} {above path : List Term} {node : Term}

theorem mem_openings {x : Finding} : x ∈ t.openings root above ↔
    ∃ path node, (path, node) ∈ t.lineages above ∧ x ∈ node.openingAt (Position.along root path) := by
  rw [openings, List.mem_flatMap]
  exact Prod.exists

/-- What is placed at which node. -/
theorem mem_placements {x : Home × Home} : x ∈ t.placements root above ↔
    ∃ path node, (path, node) ∈ t.lineages above ∧ x ∈ node.placementAt (Position.along root path) := by
  rw [placements, List.mem_filterMap]
  constructor
  · rintro ⟨y, hy, hx⟩
    rcases mem_openings.1 hy with ⟨path, node, hnode, hy⟩
    refine ⟨path, node, hnode, ?_⟩
    rw [← placements_openingAt]
    exact List.mem_filterMap.2 ⟨y, hy, hx⟩
  · rintro ⟨path, node, hnode, hx⟩
    rw [← placements_openingAt] at hx
    rcases List.mem_filterMap.1 hx with ⟨y, hy, hx⟩
    exact ⟨y, mem_openings.2 ⟨path, node, hnode, hy⟩, hx⟩

/-- Units start without other units inside. -/
theorem startsEmpty_openings {x : Finding} (h : x ∈ t.openings root above) : x.StartsEmpty := by
  rcases mem_openings.1 h with ⟨path, node, -, hx⟩
  unfold openingAt at hx
  split at hx
  · cases List.mem_singleton.1 hx
    rfl
  · unfold procedureAt at hx
    split at hx
    · cases List.mem_singleton.1 hx
      exact ⟨rfl, rfl⟩
    · cases hx
  · cases hx

variable (root) in
/-- The fragments that start in a term are those of its quotes. -/
theorem mem_fragments_openings {head : Fragment} :
    (id, head) ∈ (t.openings root above).filterMap Finding.fragment? ↔
      ∃ path site label snippet body, (path, .quote site label snippet body) ∈ t.lineages above ∧ site.id = id ∧
        head = { id, body, label, snippet, parent := (openQuotes path).head? } := by
  rw [List.mem_filterMap]
  constructor
  · rintro ⟨x, hx, hhead⟩
    rcases mem_openings.1 hx with ⟨path, node, hnode, hx⟩
    unfold openingAt at hx
    split at hx
    · next site label snippet body =>
      cases List.mem_singleton.1 hx
      cases hhead
      refine ⟨path, site, label, snippet, body, hnode, rfl, ?_⟩
      rw [← Position.fragments_along root path]
      rfl
    · unfold procedureAt at hx
      split at hx
      · cases List.mem_singleton.1 hx
        cases hhead
      · cases hx
    · cases hx
  · rintro ⟨path, site, label, snippet, body, hnode, rfl, rfl⟩
    refine ⟨_, mem_openings.2 ⟨path, _, hnode, List.mem_singleton.2 rfl⟩, ?_⟩
    rw [Finding.fragment?, Position.fragments_along]
    rfl

variable (root) in
/-- The procedures that start in a term are those of its functions outside quotes. -/
theorem mem_procedures_openings {head : Procedure} :
    (id, head) ∈ (t.openings root above).filterMap Finding.procedure? ↔
      ∃ path site params body, (path, .lambda site params body) ∈ t.lineages above ∧ openQuotes path = [] ∧
        site.id = id ∧
        head = { id, body, params := params.map (·.id), parent := some (Position.along root path).procedure } := by
  rw [List.mem_filterMap]
  constructor
  · rintro ⟨x, hx, hhead⟩
    rcases mem_openings.1 hx with ⟨path, node, hnode, hx⟩
    unfold openingAt at hx
    split at hx
    · cases List.mem_singleton.1 hx
      cases hhead
    · next site params body =>
      unfold procedureAt at hx
      split at hx
      · next hfragments =>
        cases List.mem_singleton.1 hx
        cases hhead
        rw [Position.fragments_along] at hfragments
        exact ⟨path, site, params, body, hnode, hfragments, rfl, rfl⟩
      · cases hx
    · cases hx
  · rintro ⟨path, site, params, body, hnode, hquotes, rfl, rfl⟩
    have hmem : Finding.procedure (Position.along root path).procedure ⟨site.id, body, params.map (·.id),
        some (Position.along root path).procedure, [], [], [], []⟩ ∈ t.openings root above := by
      refine mem_openings.2 ⟨path, _, hnode, ?_⟩
      rw [openingAt, procedureAt, Position.fragments_along, hquotes]
      exact List.mem_singleton.2 rfl
    exact ⟨_, hmem, rfl⟩

/-- A path from the root of a term goes on from the one that leads to the term. -/
theorem prefix_of_lineages (h : (path, node) ∈ t.lineages above) : above <+: path := by
  induction t using induct_children generalizing above with
  | step t ih =>
    rw [lineages_eq] at h
    rcases List.mem_cons.1 h with h | h
    · cases h
      exact List.prefix_refl _
    · rcases List.mem_flatMap.1 h with ⟨child, hchild, h⟩
      exact (List.prefix_append _ _).trans (ih child hchild h)

/-- In a program with different identities, a node is reached by one path. -/
theorem lineage_unique (hids : t.ids.Nodup) {e e' : List Term × Term} (h : e ∈ t.lineages above)
    (h' : e' ∈ t.lineages above) (hid : e.2.id = e'.2.id) : e = e' := by
  rw [ids, ← t.map_snd_lineages above, List.map_map] at hids
  exact List.inj_on_of_nodup_map hids h h' hid

/-- In a program with different identities, only the root has its identity. -/
theorem root_or_below (hids : t.ids.Nodup) (h : (path, node) ∈ t.lineages []) :
    path = [] ∧ node = t ∨ path ≠ [] ∧ node.id ≠ t.id := by
  rw [ids_eq, List.nodup_cons] at hids
  rw [lineages_eq] at h
  rcases List.mem_cons.1 h with h | h
  · cases h
    exact .inl ⟨rfl, rfl⟩
  · rcases List.mem_flatMap.1 h with ⟨child, hchild, h⟩
    refine .inr ⟨fun hpath => ?_, fun hid => hids.1 ?_⟩
    · have hprefix := prefix_of_lineages h
      rw [hpath] at hprefix
      cases List.prefix_nil.1 hprefix
    · have hnode : node ∈ child.nodes := by
        rw [← child.map_snd_lineages ([] ++ [t])]
        exact List.mem_map_of_mem h
      exact List.mem_flatMap.2 ⟨child, hchild, hid ▸ List.mem_map_of_mem hnode⟩

/-- What stands in the record of the main procedure from the start. A function as the root takes its place. -/
def mainHeader : Term → Procedure
  | .lambda site params body =>
    { id := site.id, body, params := params.map (·.id), parent := some site.id }
  | t => { id := t.id, body := t, params := [], parent := none }

/-- The record of the main procedure, which is there before the walk. -/
def mainRecord (t : Term) : Procedure := { id := t.id, body := t, params := [], parent := none }

/-- The survey before the walk. -/
def start (t : Term) : Survey where
  uses := .empty
  homes := .empty
  fragments := .empty
  procedures := Table.empty.insert t.id t.mainRecord

theorem survey_eq (t : Term) : t.survey = t.start.noteAll (t.findings ⟨t.id, []⟩ {}) := rfl

/-- Before the walk the units of the start are known, and nothing is in them. -/
theorem start_knows (t : Term) : t.start.Knows t.rootUnits where
  listed := by
    intro u hu
    unfold rootUnits at hu
    split at hu
    · cases hu
    · rw [List.mem_singleton.1 hu]
      simp [Survey.listed?, start]
  empty := by
    intro u _ list hlist
    cases u with
    | fragment id => cases hlist
    | procedure id =>
      rcases Option.map_eq_some_iff.1 hlist with ⟨r, hr, rfl⟩
      have hmain : r = t.mainRecord := by
        rw [start, Table.get?_insert] at hr
        split at hr
        · exact (Option.some.inj hr).symm
        · cases hr
      rw [hmain]
      rfl

/-- The walk places the units of a term. -/
theorem placements_findings (hinside : t.EscapesInside (openQuotes []).length) :
    (t.findings ⟨t.id, []⟩ {}).filterMap Finding.placement? = t.placements t.id [] := by
  rw [placements, ← openings_findings t.id hinside {}, Finding.filterMap_opens]
  · rfl
  · intro x hx
    cases x <;> first | rfl | cases hx

/-- What the records of a program list are the placements in it. -/
theorem perm_placements_survey (hids : t.ids.Nodup) (hinside : t.EscapesInside (openQuotes []).length) :
    t.survey.placements.Perm (t.placements t.id []) := by
  have hopenings := openings_findings t.id hinside {}
  have hstart : ∀ x ∈ t.findings ⟨t.id, []⟩ {}, x.StartsEmpty := by
    intro x hx
    cases hopens : x.opens with
    | true =>
      have hmem : x ∈ t.openings t.id [] := by
        rw [← hopenings]
        exact List.mem_filter.2 ⟨hx, hopens⟩
      exact startsEmpty_openings hmem
    | false => cases x <;> trivial
  have hgrows := grows_root hids
  rw [← placements_findings hinside] at hgrows ⊢
  have hperm := Survey.perm_placements_noteAll t.start_knows hgrows hstart
  have hempty : t.start.placements = [] := rfl
  rw [hempty, List.append_nil] at hperm
  exact hperm

/-- The records of one kind that start are those of the units of this kind that are placed. -/
theorem map_fst_openings {β : Type} {unit? : Home → Option NodeId} {g : Finding → Option (NodeId × β)}
    (hg : ∀ x, (g x).map (·.1) = x.placement?.bind fun p => unit? p.2) (root : NodeId) (t : Term)
    (above : List Term) : ((t.openings root above).filterMap g).map (·.1) =
      ((t.placements root above).map (·.2)).filterMap unit? := by
  rw [placements, List.filterMap_map, List.filterMap_filterMap, List.map_filterMap]
  exact List.filterMap_congr fun x _ => hg x

theorem fragments_openings (root : NodeId) (t : Term) (above : List Term) :
    ((t.openings root above).filterMap Finding.fragment?).map (·.1) =
      ((t.placements root above).map (·.2)).filterMap Home.fragment? := by
  apply map_fst_openings
  intro x
  cases x <;> rfl

theorem procedures_openings (root : NodeId) (t : Term) (above : List Term) :
    ((t.openings root above).filterMap Finding.procedure?).map (·.1) =
      ((t.placements root above).map (·.2)).filterMap Home.procedure? := by
  apply map_fst_openings
  intro x
  cases x <;> rfl

/-- Each unit starts once. -/
theorem nodup_openings (hids : t.ids.Nodup) :
    (((t.openings t.id []).filterMap Finding.fragment?).map (·.1)).Nodup ∧
      (((t.openings t.id []).filterMap Finding.procedure?).map (·.1)).Nodup := by
  have hunits := (grows_root hids).nodup.1
  rw [fragments_openings, procedures_openings]
  constructor
  · refine hunits.filterMap ?_
    rintro (_ | _) (_ | _) id hid hid' <;> cases hid <;> cases hid'
    rfl
  · refine hunits.filterMap ?_
    rintro (_ | _) (_ | _) id hid hid' <;> cases hid <;> cases hid'
    rfl

/-- The records of a program are those of the units that start in it. -/
theorem heads_survey (hinside : t.EscapesInside (openQuotes []).length) :
    t.survey.Heads ((t.openings t.id []).filterMap Finding.fragment?)
      ((t.id, t.mainRecord) :: (t.openings t.id []).filterMap Finding.procedure?) := by
  have hstart : t.start.Heads [] [(t.id, t.mainRecord)] := by
    refine ⟨fun id => rfl, fun id => ?_, rfl⟩
    change ((Table.empty.insert t.id t.mainRecord).get? id).map Procedure.header =
      (Table.empty.insert t.id t.mainRecord).get? id
    rw [Table.get?_insert]
    split <;> rfl
  have hheads := hstart.noteAll (t.findings ⟨t.id, []⟩ {})
  rw [← openings_findings t.id hinside {}, Finding.filterMap_opens, Finding.filterMap_opens]
  · exact hheads
  · intro x hx
    cases x <;> first | rfl | cases hx
  · intro x hx
    cases x <;> first | rfl | cases hx

end Term

namespace Blueprint

variable {t : Term} {types : TypeTable} {b : Blueprint} {id : NodeId}

/-- All units that the records of a program list. -/
def placements (b : Blueprint) : List (Home × Home) :=
  b.main.placements b.main.id ++ b.procedures.contents (fun id r => r.placements id) ++
    b.fragments.contents fun id f => f.placements id

theorem procedures_of_ofTerm (hb : Blueprint.ofTerm t types = .ok b) :
    t.survey.procedures.get? t.id = some b.main ∧ b.procedures = t.survey.procedures.erase t.id := by
  rcases ofTerm_eq_ok hb with ⟨linked, hlink, -, -, hmain, hothers⟩
  rw [Survey.link_eq_ok hlink] at hmain hothers
  exact ⟨hmain, hothers⟩

/-- What stands in the record of the main procedure from the start. -/
theorem main_header (hids : t.ids.Nodup) (hb : Blueprint.ofTerm t types = .ok b) :
    b.main.header = t.mainHeader := by
  have hmain := (t.heads_survey (escapesInside_of_ofTerm hb)).procedure t.id
  rw [(procedures_of_ofTerm hb).1, Table.get?_ofList_cons, if_pos rfl] at hmain
  have hother : t.tag ≠ .lambda →
      (Table.ofList ((t.openings t.id []).filterMap Finding.procedure?)).get? t.id = none := by
    intro htag
    rw [Option.eq_none_iff_forall_ne_some]
    intro head hhead
    rcases (Term.mem_procedures_openings t.id).1 (Table.mem_of_get?_ofList hhead) with
      ⟨path, site, params, body, hnode, -, hid, -⟩
    rcases Term.root_or_below hids hnode with ⟨-, hroot⟩ | ⟨-, hne⟩
    · exact htag (hroot ▸ rfl)
    · exact hne hid
  cases t with
  | lambda site params body =>
    -- the record of the function has replaced the one that was there before the walk
    have hself : (site.id, (Term.lambda site params body).mainHeader) ∈
        ((Term.lambda site params body).openings site.id []).filterMap Finding.procedure? := by
      rw [Term.mem_procedures_openings]
      refine ⟨[], site, params, body, ?_, rfl, rfl, rfl⟩
      rw [Term.lineages_eq]
      exact List.mem_cons_self
    have hget := Table.get?_ofList_of_nodup (Term.nodup_openings hids).2 hself
    exact Option.some.inj (hmain.trans (congrArg (Option.or · _) hget))
  | _ =>
    rw [hother (by simp [Term.tag])] at hmain
    exact Option.some.inj hmain

theorem main_id (hids : t.ids.Nodup) (hb : Blueprint.ofTerm t types = .ok b) : b.main.id = t.id := by
  have hid := congrArg Procedure.id (main_header hids hb)
  cases t <;> exact hid

/-- The records of procedures besides the main one are those of the functions outside quotes, except the root. -/
theorem procedure_iff (hids : t.ids.Nodup) (hb : Blueprint.ofTerm t types = .ok b) {head : Procedure} :
    (∃ r, b.procedures.get? id = some r ∧ r.header = head) ↔
      ∃ path site params body, (path, .lambda site params body) ∈ t.lineages [] ∧ path ≠ [] ∧
        openQuotes path = [] ∧ site.id = id ∧
        head = { id, body, params := params.map (·.id), parent := some (Position.along t.id path).procedure } := by
  have hheads := (t.heads_survey (escapesInside_of_ofTerm hb)).procedure id
  rw [← Option.map_eq_some_iff, (procedures_of_ofTerm hb).2, Table.get?_erase]
  by_cases hroot : id = t.id
  · rw [if_pos hroot]
    refine ⟨fun h => absurd h (by simp), ?_⟩
    rintro ⟨path, site, params, body, hnode, hpath, -, hid, -⟩
    rcases Term.root_or_below hids hnode with ⟨hnil, -⟩ | ⟨-, hne⟩
    · exact absurd hnil hpath
    · exact absurd (hid.trans hroot) hne
  · rw [if_neg hroot, hheads, Table.get?_ofList_cons, if_neg (Ne.symm hroot), Option.or_none]
    constructor
    · intro hget
      rcases (Term.mem_procedures_openings t.id).1 (Table.mem_of_get?_ofList hget) with
        ⟨path, site, params, body, hnode, hquotes, hid, hhead⟩
      refine ⟨path, site, params, body, hnode, ?_, hquotes, hid, hhead⟩
      rcases Term.root_or_below hids hnode with ⟨-, rfl⟩ | ⟨hpath, -⟩
      · exact absurd hid.symm hroot
      · exact hpath
    · rintro ⟨path, site, params, body, hnode, -, hquotes, hid, hhead⟩
      exact Table.get?_ofList_of_nodup (Term.nodup_openings hids).2
        ((Term.mem_procedures_openings t.id).2 ⟨path, site, params, body, hnode, hquotes, hid, hhead⟩)

/-- The records of fragments are those of the quotes. -/
theorem fragment_iff (hids : t.ids.Nodup) (hb : Blueprint.ofTerm t types = .ok b) {head : Fragment} :
    (∃ f, b.fragments.get? id = some f ∧ f.header = head) ↔
      ∃ path site label snippet body, (path, .quote site label snippet body) ∈ t.lineages [] ∧ site.id = id ∧
        head = { id, body, label, snippet, parent := (openQuotes path).head? } := by
  rcases ofTerm_eq_ok hb with ⟨linked, hlink, -, hfragments, -⟩
  have hsame := congrArg (Table.get? · id) (Survey.map_collect_link (fun _ f => f.header)
    (fun _ _ _ => rfl) (fun _ _ _ _ => rfl) hlink)
  simp only [Table.get?_map, ← hfragments] at hsame
  rw [← Option.map_eq_some_iff, hsame, (t.heads_survey (escapesInside_of_ofTerm hb)).fragment id,
    ← Term.mem_fragments_openings t.id]
  exact ⟨Table.mem_of_get?_ofList, Table.get?_ofList_of_nodup (Term.nodup_openings hids).1⟩

/-- The units that the records list are placed as in the program. -/
theorem perm_placements (hids : t.ids.Nodup) (hb : Blueprint.ofTerm t types = .ok b) :
    b.placements.Perm (t.placements t.id []) := by
  rcases ofTerm_eq_ok hb with ⟨linked, hlink, -, hfragments, -⟩
  obtain ⟨hmain, hothers⟩ := procedures_of_ofTerm hb
  have hsame := congrArg (Table.contents fun _ listed => listed) (Survey.map_collect_link
    (fun id f => f.placements id) (fun _ _ _ => rfl) (fun _ _ _ _ => rfl) hlink)
  rw [Table.contents_map, Table.contents_map, ← hfragments] at hsame
  have hprocedures := Table.perm_contents_erase (fun id r => Procedure.placements r id) hmain
  rw [← hothers] at hprocedures
  refine List.Perm.trans ?_ (t.perm_placements_survey hids (escapesInside_of_ofTerm hb))
  rw [placements, main_id hids hb, hsame]
  exact hprocedures.symm.append_right _

end Blueprint

/-! ## Going up -/

/-- Go from a unit to the one around it, a number of times. -/
def climb (parent? : NodeId → Option NodeId) : Nat → NodeId → Option NodeId
  | 0, id => some id
  | n + 1, id => (parent? id).bind (climb parent? n)

end Multistage
