import Multistage.Proofs.NodeScopes
import Multistage.Proofs.Scopes

/-!
# The names of a unit

A unit lists the definitions that are made in it, as bound, and those that are used in it but made elsewhere, as
free. Whether a definition was made elsewhere is decided when it is used. This is right because the walk comes to
each definition before its uses, and to each unit before what is made or used in it (`Term.ready_findings`).

`Survey.Lists` says what the lists of all units are, given the definitions and uses that have been found so far. A
single finding keeps it (`Survey.Lists.note`), and so does the whole walk.

Main statement: `free_and_bound_exact`.
-/

namespace Multistage

/-! ## Lists of names -/

/-- The names that a unit lists. -/
structure UnitNames where
  free : List NodeId := []
  bound : List NodeId := []

/-- A definition is made in the unit. -/
def UnitNames.bind (names : UnitNames) (d : NodeId) : UnitNames := { names with bound := names.bound ++ [d] }

/-- A definition that was made elsewhere is used in the unit. -/
def UnitNames.addFree (names : UnitNames) (d : NodeId) : UnitNames := { names with free := addNew names.free d }

def Procedure.names (r : Procedure) : UnitNames := ⟨r.free, r.bound⟩

def Fragment.names (f : Fragment) : UnitNames := ⟨f.free, f.bound⟩

theorem mem_addNew {list : List NodeId} {id id' : NodeId} : id' ∈ addNew list id ↔ id' ∈ list ∨ id' = id := by
  unfold addNew
  split
  · next hmem =>
    refine (or_iff_left_of_imp ?_).symm
    rintro rfl
    exact hmem
  · simp

theorem nodup_addNew {list : List NodeId} (h : list.Nodup) (id : NodeId) : (addNew list id).Nodup := by
  unfold addNew
  split
  · exact h
  · next hnotin =>
    rw [← List.concat_eq_append]
    exact h.concat hnotin

namespace Finding

/-- The unit that starts. -/
def unit? (x : Finding) : Option Home := x.placement?.map (·.2)

/-- The definition that is made, with the unit that it is made in. -/
def definition? : Finding → Option (Home × NodeId)
  | .definition home id => some (home, id)
  | _ => none

/-- The definition that is used, with the unit that it is used in. -/
def use? : Finding → Option (Home × NodeId)
  | .use home _ (some id) => some (home, id)
  | _ => none

/-- A unit starts without names. -/
def StartsBlank : Finding → Prop
  | .fragment _ f => f.names = {}
  | .procedure _ r => r.names = {}
  | _ => True

/-- What a finding does to the names of a unit, given where definitions have been made. -/
def onNames (homes : Table Home) (unit : Home) (names : Option UnitNames) : Finding → Option UnitNames
  | .definition home id => if unit = home then names.map (·.bind id) else names
  | .use home _ (some id) =>
    if unit = home ∧ homes.get? id ≠ some home then names.map (·.addFree id) else names
  | .fragment _ f => if unit = .fragment f.id then some f.names else names
  | .procedure _ r => if unit = .procedure r.id then some r.names else names
  | _ => names

end Finding

namespace Survey

variable {s : Survey} {x : Finding} {u : Home}

/-- The names that a unit lists, if it has a record. -/
def names? (s : Survey) : Home → Option UnitNames
  | .procedure id => (s.procedures.get? id).map Procedure.names
  | .fragment id => (s.fragments.get? id).map Fragment.names

/-- Changing a procedure changes the names of that unit only. -/
theorem names?_changeProcedure (id : NodeId) {g : Procedure → Procedure} (change : UnitNames → UnitNames)
    (hg : ∀ r, (g r).names = change r.names) :
    (s.changeProcedure id g).names? u = if u = .procedure id then (s.names? u).map change else s.names? u := by
  cases u with
  | procedure id' =>
    simp only [names?, changeProcedure, Table.get?_modify, Home.procedure.injEq]
    split
    · simp [Function.comp_def, hg]
    · rfl
  | fragment id' => rfl

/-- Changing a fragment changes the names of that unit only. -/
theorem names?_changeFragment (id : NodeId) {g : Fragment → Fragment} (change : UnitNames → UnitNames)
    (hg : ∀ f, (g f).names = change f.names) :
    (s.changeFragment id g).names? u = if u = .fragment id then (s.names? u).map change else s.names? u := by
  cases u with
  | fragment id' =>
    simp only [names?, changeFragment, Table.get?_modify, Home.fragment.injEq]
    split
    · simp [Function.comp_def, hg]
    · rfl
  | procedure id' => rfl

/-- A change of a record that cannot be seen in its names. -/
theorem names?_changeFragment_same (id : NodeId) {g : Fragment → Fragment} (hg : ∀ f, (g f).names = f.names) :
    (s.changeFragment id g).names? u = s.names? u := by
  rw [names?_changeFragment id (fun names => names) hg]
  simp

theorem names?_changeProcedure_same (id : NodeId) {g : Procedure → Procedure} (hg : ∀ r, (g r).names = r.names) :
    (s.changeProcedure id g).names? u = s.names? u := by
  rw [names?_changeProcedure id (fun names => names) hg]
  simp

/-- What a finding does to the names of a unit is `onNames`. -/
theorem names?_note (s : Survey) (x : Finding) (u : Home) :
    (s.note x).names? u = x.onNames s.homes u (s.names? u) := by
  cases x with
  | definition home d =>
    cases home with
    | procedure p => exact names?_changeProcedure p _ fun _ => rfl
    | fragment f => exact names?_changeFragment f _ fun _ => rfl
  | use home user definition =>
    cases definition with
    | none => rfl
    | some d =>
      simp only [note, use, Finding.onNames]
      -- a name of the unit itself is not free in it
      by_cases hhome : s.homes.get? d = some home
      · simp only [hhome, if_true, ne_eq, not_true, and_false, if_false]
        cases u <;> rfl
      · simp only [hhome, if_false, ne_eq, not_false_eq_true, and_true]
        cases home with
        | procedure p => exact names?_changeProcedure p _ fun _ => rfl
        | fragment f => exact names?_changeFragment f _ fun _ => rfl
  | snippet => cases u <;> rfl
  | escape kind record =>
    apply names?_changeFragment_same
    intro f
    cases kind <;> rfl
  | fragment position f =>
    -- a new record is read at its own key only; the unit around it gets an entry but no name
    have hinsert : names? { s with fragments := s.fragments.insert f.id f, order := f.id :: s.order } u =
        if u = .fragment f.id then some f.names else s.names? u := by
      cases u with
      | procedure id => rfl
      | fragment id =>
        simp only [names?, Table.get?_insert, Home.fragment.injEq, eq_comm (a := id)]
        split <;> rfl
    rw [Finding.onNames, ← hinsert]
    simp only [note, openFragment]
    cases position.home with
    | procedure p => exact names?_changeProcedure_same p fun _ => rfl
    | fragment key => exact names?_changeFragment_same key fun _ => rfl
  | procedure parent r =>
    have hinsert : names? { s with procedures := s.procedures.insert r.id r } u =
        if u = .procedure r.id then some r.names else s.names? u := by
      cases u with
      | fragment id => rfl
      | procedure id =>
        simp only [names?, Table.get?_insert, Home.procedure.injEq, eq_comm (a := id)]
        split <;> rfl
    rw [Finding.onNames, ← hinsert]
    exact names?_changeProcedure_same parent fun _ => rfl

/-- No record is taken away. -/
theorem names?_note_ne_none (h : s.names? u ≠ none) (x : Finding) : (s.note x).names? u ≠ none := by
  rw [names?_note]
  unfold Finding.onNames
  split
  · split <;> simpa using h
  · split <;> simpa using h
  · split <;> simp [h]
  · split <;> simp [h]
  · exact h

/-- Only definitions are written down with the unit that they are made in. -/
theorem homes_note (s : Survey) (x : Finding) : (s.note x).homes =
    match x.definition? with
    | some (home, d) => s.homes.insert d home
    | none => s.homes := by
  cases x with
  | definition home d => cases home <;> rfl
  | use home user definition =>
    cases definition with
    | none => rfl
    | some d =>
      simp only [note, use, Finding.definition?]
      split
      · rfl
      · cases home <;> rfl
  | fragment position f =>
    simp only [note, openFragment, Finding.definition?]
    cases position.home <;> rfl
  | snippet | procedure | escape => rfl

/-! ## What the lists are -/

/-- The names of all units, given the units that have started and the definitions that have been made and used, each
with the unit where this was. -/
structure Lists (s : Survey) (units : List Home) (made used : List (Home × NodeId)) : Prop where
  record : ∀ u ∈ units, s.names? u ≠ none
  home : ∀ u d, s.homes.get? d = some u ↔ (u, d) ∈ made
  bound : ∀ u names, s.names? u = some names → names.bound.Nodup ∧ ∀ d, d ∈ names.bound ↔ (u, d) ∈ made
  free : ∀ u names, s.names? u = some names →
    names.free.Nodup ∧ ∀ d, d ∈ names.free ↔ (u, d) ∈ used ∧ (u, d) ∉ made
  started : ∀ e ∈ made ++ used, e.1 ∈ units
  known : ∀ e ∈ used, e.2 ∈ made.map (·.2)

end Survey

/-- A finding comes after the start of the unit where it is made, and a use after the definition. -/
def Finding.Ready (units : List Home) (definitions : List NodeId) : Finding → Prop
  | .definition home _ => home ∈ units
  | .use home _ (some d) => home ∈ units ∧ d ∈ definitions
  | _ => True

namespace Survey.Lists

variable {s : Survey} {x : Finding} {units : List Home} {made used : List (Home × NodeId)}

/-- A definition that is new. -/
theorem definition {home : Home} {d : NodeId} (h : s.Lists units made used) (hhome : home ∈ units)
    (hnew : d ∉ made.map (·.2)) : (s.note (.definition home d)).Lists units (made ++ [(home, d)]) used where
  record := by
    intro u hu
    exact names?_note_ne_none (h.record u hu) _
  home := by
    intro u d'
    -- a definition that is made for the first time has no home yet
    have hnone : ∀ u, (u, d) ∉ made := fun u hmem => hnew (List.mem_map_of_mem hmem)
    rw [homes_note, List.mem_append, List.mem_singleton, ← h.home]
    simp only [Finding.definition?, Table.get?_insert]
    by_cases hd : d = d'
    · subst hd
      simp [h.home, hnone, eq_comm]
    · simp [hd, Ne.symm hd]
  bound := by
    intro u names hnames
    rw [names?_note, Finding.onNames] at hnames
    split at hnames
    · next hu =>
      subst hu
      rcases Option.map_eq_some_iff.1 hnames with ⟨old, hold, rfl⟩
      rcases h.bound u old hold with ⟨hnodup, hmem⟩
      -- it is new in the list of its unit
      have hnotin : d ∉ old.bound := fun hin => hnew (List.mem_map_of_mem ((hmem d).1 hin))
      constructor
      · rw [UnitNames.bind, ← List.concat_eq_append]
        exact hnodup.concat hnotin
      · intro d'
        simp [UnitNames.bind, hmem]
    · next hu =>
      rcases h.bound u names hnames with ⟨hnodup, hmem⟩
      refine ⟨hnodup, fun d' => ?_⟩
      simp [hmem, hu]
  free := by
    intro u names hnames
    -- the definition has not been used yet
    have hunused : (u, d) ∉ used := fun hmem => hnew (h.known _ hmem)
    obtain ⟨old, hold, hsame⟩ : ∃ old, s.names? u = some old ∧ names.free = old.free := by
      rw [names?_note, Finding.onNames] at hnames
      split at hnames
      · rcases Option.map_eq_some_iff.1 hnames with ⟨old, hold, rfl⟩
        exact ⟨old, hold, rfl⟩
      · exact ⟨names, hnames, rfl⟩
    rcases h.free u old hold with ⟨hnodup, hmem⟩
    rw [hsame]
    refine ⟨hnodup, fun d' => ?_⟩
    rw [hmem, List.mem_append, List.mem_singleton, not_or]
    refine and_congr_right fun hused => (and_iff_left ?_).symm
    intro heq
    cases heq
    exact hunused hused
  started := by
    intro e he
    simp only [List.append_assoc, List.mem_append, List.mem_singleton] at he
    rcases he with he | rfl | he
    · exact h.started e (List.mem_append_left _ he)
    · exact hhome
    · exact h.started e (List.mem_append_right _ he)
  known := by
    intro e he
    rw [List.map_append]
    exact List.mem_append_left _ (h.known e he)

/-- A use of a definition is free in the unit if the definition was made in another one. -/
theorem use {home : Home} {d : NodeId} (user : NodeId) (h : s.Lists units made used) (hhome : home ∈ units)
    (hd : d ∈ made.map (·.2)) : (s.note (.use home user (some d))).Lists units made (used ++ [(home, d)]) where
  record := by
    intro u hu
    exact names?_note_ne_none (h.record u hu) _
  home := by
    intro u d'
    rw [homes_note]
    exact h.home u d'
  bound := by
    intro u names hnames
    -- a use binds nothing
    obtain ⟨old, hold, hsame⟩ : ∃ old, s.names? u = some old ∧ names.bound = old.bound := by
      rw [names?_note, Finding.onNames] at hnames
      split at hnames
      · rcases Option.map_eq_some_iff.1 hnames with ⟨old, hold, rfl⟩
        exact ⟨old, hold, rfl⟩
      · exact ⟨names, hnames, rfl⟩
    rw [hsame]
    exact h.bound u old hold
  free := by
    intro u names hnames
    rw [names?_note, Finding.onNames] at hnames
    split at hnames
    · next hfree =>
      -- the use is new in the list, unless there was one before
      obtain ⟨rfl, hother⟩ := hfree
      rw [ne_eq, h.home] at hother
      rcases Option.map_eq_some_iff.1 hnames with ⟨old, hold, rfl⟩
      rcases h.free u old hold with ⟨hnodup, hmem⟩
      refine ⟨nodup_addNew hnodup d, fun d' => ?_⟩
      rw [UnitNames.addFree, mem_addNew, hmem, List.mem_append, List.mem_singleton, or_and_right]
      refine or_congr_right ⟨?_, fun heq => (Prod.mk.inj heq.1).2⟩
      rintro rfl
      exact ⟨rfl, hother⟩
    · next hown =>
      -- either another unit, or a name that is bound in this one
      rcases h.free u names hnames with ⟨hnodup, hmem⟩
      refine ⟨hnodup, fun d' => ?_⟩
      rw [hmem, List.mem_append, List.mem_singleton, or_and_right]
      refine (or_iff_left ?_).symm
      rintro ⟨heq, hother⟩
      cases heq
      exact hown ⟨rfl, fun hhome => hother ((h.home _ _).1 hhome)⟩
  started := by
    intro e he
    rw [← List.append_assoc] at he
    rcases List.mem_append.1 he with he | he
    · exact h.started e he
    · rw [List.mem_singleton.1 he]
      exact hhome
  known := by
    intro e he
    rcases List.mem_append.1 he with he | he
    · exact h.known e he
    · rw [List.mem_singleton.1 he]
      exact hd

/-- A unit that starts has no names. -/
theorem start {unit : Home} (h : s.Lists units made used) (hnew : unit ∉ units)
    (hnames : ∀ u, (s.note x).names? u = if u = unit then some {} else s.names? u)
    (hhomes : (s.note x).homes = s.homes) : (s.note x).Lists (units ++ [unit]) made used where
  record := by
    intro u hu
    rcases List.mem_append.1 hu with hu | hu
    · exact names?_note_ne_none (h.record u hu) _
    · rw [List.mem_singleton.1 hu, hnames, if_pos rfl]
      exact Option.some_ne_none _
  home := by
    rw [hhomes]
    exact h.home
  bound := by
    intro u names hget
    rw [hnames] at hget
    split at hget
    · next hu =>
      subst hu
      cases hget
      -- nothing can have been made in a unit that has not started
      refine ⟨List.nodup_nil, fun d => iff_of_false List.not_mem_nil fun hmem => ?_⟩
      exact hnew (h.started _ (List.mem_append_left _ hmem))
    · exact h.bound u names hget
  free := by
    intro u names hget
    rw [hnames] at hget
    split at hget
    · next hu =>
      subst hu
      cases hget
      refine ⟨List.nodup_nil, fun d => iff_of_false List.not_mem_nil fun hmem => ?_⟩
      exact hnew (h.started _ (List.mem_append_right _ hmem.1))
    · exact h.free u names hget
  started := by
    intro e he
    exact List.mem_append_left _ (h.started e he)
  known := h.known

/-- A finding that is no concern of names. -/
theorem same (h : s.Lists units made used) (hnames : ∀ u, (s.note x).names? u = s.names? u)
    (hhomes : (s.note x).homes = s.homes) : (s.note x).Lists units made used := by
  have hall : (s.note x).names? = s.names? := funext hnames
  constructor
  · rw [hall]
    exact h.record
  · rw [hhomes]
    exact h.home
  · rw [hall]
    exact h.bound
  · rw [hall]
    exact h.free
  · exact h.started
  · exact h.known

/-- What a finding does to the lists of names. -/
theorem note (h : s.Lists units made used) (hready : x.Ready units (made.map (·.2)))
    (hunit : ∀ u, x.unit? = some u → u ∉ units) (hblank : x.StartsBlank)
    (honce : ∀ e, x.definition? = some e → e.2 ∉ made.map (·.2)) :
    (s.note x).Lists (units ++ x.unit?.toList) (made ++ x.definition?.toList) (used ++ x.use?.toList) := by
  cases x with
  | definition home d =>
    have hstep := h.definition hready (honce _ rfl)
    simpa [Finding.unit?, Finding.placement?, Finding.definition?, Finding.use?] using hstep
  | use home user definition =>
    cases definition with
    | none =>
      have hstep := h.same (names?_note s (.use home user none)) (homes_note s _)
      simpa [Finding.unit?, Finding.placement?, Finding.definition?, Finding.use?] using hstep
    | some d =>
      have hstep := h.use user hready.1 hready.2
      simpa [Finding.unit?, Finding.placement?, Finding.definition?, Finding.use?] using hstep
  | snippet d value =>
    have hstep := h.same (names?_note s (.snippet d value)) (homes_note s _)
    simpa [Finding.unit?, Finding.placement?, Finding.definition?, Finding.use?] using hstep
  | escape kind record =>
    have hstep := h.same (names?_note s (.escape kind record)) (homes_note s _)
    simpa [Finding.unit?, Finding.placement?, Finding.definition?, Finding.use?] using hstep
  | fragment position f =>
    have hnames : ∀ u, (s.note (.fragment position f)).names? u =
        if u = .fragment f.id then some {} else s.names? u := by
      intro u
      rw [names?_note, Finding.onNames, show f.names = {} from hblank]
    have hstep := h.start (hunit (.fragment f.id) rfl) hnames (homes_note s _)
    simpa [Finding.unit?, Finding.placement?, Finding.definition?, Finding.use?] using hstep
  | procedure parent r =>
    have hnames : ∀ u, (s.note (.procedure parent r)).names? u =
        if u = .procedure r.id then some {} else s.names? u := by
      intro u
      rw [names?_note, Finding.onNames, show r.names = {} from hblank]
    have hstep := h.start (hunit (.procedure r.id) rfl) hnames (homes_note s _)
    simpa [Finding.unit?, Finding.placement?, Finding.definition?, Finding.use?] using hstep

end Survey.Lists

/-! ## The walk is in order -/

/-- The definitions among findings. -/
def definedBy (xs : List Finding) : List NodeId := (xs.filterMap Finding.definition?).map (·.2)

theorem definedBy_append (xs ys : List Finding) : definedBy (xs ++ ys) = definedBy xs ++ definedBy ys := by
  rw [definedBy, List.filterMap_append, List.map_append]
  rfl

/-- Findings that come one after another, each after what it needs. Some units and definitions are there from the
start. -/
def ReadyAll : (units : List Home) → (definitions : List NodeId) → List Finding → Prop
  | _, _, [] => True
  | units, definitions, x :: rest => x.Ready units definitions ∧
      ReadyAll (units ++ x.unit?.toList) (definitions ++ x.definition?.toList.map (·.2)) rest

/-- What comes later is in order after what has been started and defined before. -/
theorem readyAll_append {units : List Home} {definitions : List NodeId} {xs ys : List Finding} :
    ReadyAll units definitions (xs ++ ys) ↔ ReadyAll units definitions xs ∧
      ReadyAll (units ++ xs.filterMap Finding.unit?) (definitions ++ definedBy xs) ys := by
  induction xs generalizing units definitions with
  | nil => simp [ReadyAll, definedBy]
  | cons x rest ih =>
    rw [List.cons_append, ReadyAll, ReadyAll, ih, and_assoc, definedBy, definedBy, filterMap_cons_toList,
      filterMap_cons_toList, List.map_append, List.append_assoc, List.append_assoc]

/-- The lists of names after a walk in order, on which no unit starts twice and nothing is defined twice. -/
theorem Survey.Lists.noteAll {s : Survey} {units : List Home} {made used : List (Home × NodeId)} {xs : List Finding}
    (h : s.Lists units made used) (hready : ReadyAll units (made.map (·.2)) xs)
    (hgrows : Grows units (xs.filterMap Finding.placement?)) (hblank : ∀ x ∈ xs, x.StartsBlank)
    (honce : ((made ++ xs.filterMap Finding.definition?).map (·.2)).Nodup) :
    (s.noteAll xs).Lists (units ++ xs.filterMap Finding.unit?) (made ++ xs.filterMap Finding.definition?)
      (used ++ xs.filterMap Finding.use?) := by
  induction xs generalizing s units made used with
  | nil => simpa using h
  | cons x rest ih =>
    rw [filterMap_cons_toList, grows_append] at hgrows
    rw [filterMap_cons_toList, ← List.append_assoc] at honce
    obtain ⟨hx, hrest⟩ := List.forall_mem_cons.1 hblank
    have hplaced : x.placement?.toList.map (·.2) = x.unit?.toList := by
      unfold Finding.unit?
      cases x.placement? <;> rfl
    -- the finding meets the conditions of `note`, by those on the whole walk
    have hunit : ∀ u, x.unit? = some u → u ∉ units := by
      intro u hu
      rcases Option.map_eq_some_iff.1 hu with ⟨⟨outer, inner⟩, hplacement, rfl⟩
      rw [hplacement] at hgrows
      exact hgrows.1.1
    have hnew : ∀ e, x.definition? = some e → e.2 ∉ made.map (·.2) := by
      intro e he hmem
      rw [he, List.map_append, List.map_append] at honce
      have hdisjoint := List.disjoint_of_nodup_append (List.nodup_append.1 honce).1
      exact hdisjoint hmem (List.mem_singleton.2 rfl)
    have hstep := h.note hready.1 hunit hx hnew
    have hnext := hready.2
    rw [← List.map_append] at hnext
    rw [hplaced] at hgrows
    rw [filterMap_cons_toList, filterMap_cons_toList, filterMap_cons_toList, ← List.append_assoc,
      ← List.append_assoc, ← List.append_assoc]
    exact ih hstep hnext hgrows.2 hrest honce

/-- All names in scope stand for given definitions. -/
def Scope.Within (scope : Scope NodeId) (definitions : List NodeId) : Prop :=
  ∀ name d, scope.lookup? name = some d → d ∈ definitions

namespace Scope.Within

variable {scope : Scope NodeId} {definitions : List NodeId}

theorem append (h : scope.Within definitions) (more : List NodeId) : scope.Within (definitions ++ more) := by
  intro name d hd
  exact List.mem_append_left _ (h name d hd)

theorem extend (h : scope.Within definitions) (name : String) {d : NodeId} (hd : d ∈ definitions) :
    (scope.extend name d).Within definitions := by
  intro name' d' hd'
  rw [lookup?_extend] at hd'
  split at hd'
  · cases hd'
    exact hd
  · exact h name' d' hd'

theorem extendAll (h : scope.Within definitions) {frame : List (String × NodeId)}
    (hframe : frame.map (·.2) ⊆ definitions) : (scope.extendAll frame).Within definitions := by
  intro name d hd
  rw [lookup?_extendAll, Option.or_eq_some_iff] at hd
  rcases hd with hnew | ⟨-, hold⟩
  · exact hframe (List.mem_map_of_mem (List.mem_reverse.1 (mem_of_newest? hnew)))
  · exact h name d hold

end Scope.Within

namespace Term

variable {t : Term} {position : Position} {scope : Scope NodeId} {units : List Home} {definitions : List NodeId}

/-- After a term, names stand for definitions in it or for older ones. -/
theorem within_scopeAfter (h : scope.Within definitions) :
    (t.scopeAfter scope).Within (definitions ++ definedBy (t.findings position scope)) := by
  induction t generalizing scope definitions with
  | seq s l r ihl ihr =>
    rw [scopeAfter, findings, definedBy_append, ← List.append_assoc]
    exact ihr (ihl h)
  | define s name value ih =>
    refine (h.append _).extend name (List.mem_append_right _ ?_)
    rw [findings, definedBy_append]
    exact List.mem_append_right _ List.mem_cons_self
  | host s name type => exact (h.append _).extend name (List.mem_append_right _ List.mem_cons_self)
  | run s body ih => exact ih h
  | _ => exact h.append _

theorem readyAll_givenTo (definition : Option NodeId) : ReadyAll units definitions (t.givenTo definition) := by
  unfold givenTo
  split
  · exact ⟨trivial, trivial⟩
  · trivial

/-- Parameters are defined in a unit that has started. -/
theorem readyAll_params {home : Home} (hhome : home ∈ units) (params : List Param) :
    ReadyAll units definitions (params.map fun param => .definition home param.id) := by
  induction params generalizing definitions with
  | nil => trivial
  | cons param rest ih =>
    refine ⟨hhome, ?_⟩
    simpa [Finding.unit?, Finding.placement?] using ih

/-- The walk through several terms is in order if it is so through each. -/
theorem readyAll_findingsAll {ts : List Term} (hopen : position.units ⊆ units) (hscope : scope.Within definitions)
    (ih : ∀ t ∈ ts, ∀ {units definitions}, position.units ⊆ units → scope.Within definitions →
      ReadyAll units definitions (t.findings position scope)) :
    ReadyAll units definitions (findingsAll ts position scope) := by
  induction ts generalizing units definitions with
  | nil => trivial
  | cons t rest ihrest =>
    rw [findingsAll, readyAll_append]
    refine ⟨ih t List.mem_cons_self hopen hscope, ihrest ?_ (hscope.append _) fun u hu => ?_⟩
    · exact List.Subset.trans hopen (List.subset_append_left _ _)
    · exact ih u (List.mem_cons_of_mem _ hu)

theorem readyAll_procedureAt (site : Site) (params : List Param) (body : Term) :
    ReadyAll units definitions (procedureAt site params body position) := by
  unfold procedureAt
  split
  · exact ⟨trivial, trivial⟩
  · trivial

/-- In a function, its procedure starts first, if it is one, and then the parameters are defined. -/
theorem readyAll_lambda {site : Site} {params : List Param} {body : Term}
    (hinner : (position.called site.id).units ⊆
      units ++ (procedureAt site params body position).filterMap Finding.unit?)
    (hscope : scope.Within definitions)
    (ih : ∀ {position scope units definitions}, Position.units position ⊆ units → Scope.Within scope definitions →
      ReadyAll units definitions (body.findings position scope)) :
    ReadyAll units definitions ((Term.lambda site params body).findings position scope) := by
  rw [findings, readyAll_append, readyAll_append, List.filterMap_append, ← List.append_assoc]
  refine ⟨⟨readyAll_procedureAt site params body, ?_⟩, ih ?_ ?_⟩
  · exact readyAll_params (hinner (Position.home_mem_units _)) params
  · exact List.Subset.trans hinner (List.subset_append_left _ _)
  · refine (hscope.append _).extendAll fun d hd => List.mem_append_right _ ?_
    rw [definedBy_append]
    refine List.mem_append_right _ ?_
    simpa [definedBy, List.filterMap_map, Finding.definition?, Function.comp_def] using hd

/-- The walk comes to each unit before what is found in it, and to each definition before its uses, if the units
around a term have started and the names in scope have been defined. -/
theorem ready_findings (hopen : position.units ⊆ units) (hscope : scope.Within definitions) :
    ReadyAll units definitions (t.findings position scope) := by
  induction t generalizing position scope units definitions with
  | literal | held => trivial
  | lookup s name =>
    refine ⟨?_, trivial⟩
    cases hname : scope.lookup? name with
    | none => trivial
    | some d => exact ⟨hopen position.home_mem_units, hscope name d hname⟩
  | host s name type => exact ⟨hopen position.home_mem_units, trivial⟩
  | seq s l r ihl ihr | binary s op l r ihl ihr =>
    rw [findings, readyAll_append]
    -- what is in scope after the first part has been defined in it or before it
    refine ⟨ihl hopen hscope, ihr ?_ (within_scopeAfter hscope)⟩
    exact List.Subset.trans hopen (List.subset_append_left _ _)
  | define s name value ih =>
    rw [findings, readyAll_append]
    refine ⟨ih hopen hscope, ?_, readyAll_givenTo _⟩
    exact List.mem_append_left _ (hopen position.home_mem_units)
  | assign s name value ih =>
    rw [findings, readyAll_append]
    refine ⟨ih hopen hscope, ?_, readyAll_givenTo _⟩
    cases hname : scope.lookup? name with
    | none => trivial
    | some d =>
      exact ⟨List.mem_append_left _ (hopen position.home_mem_units), List.mem_append_left _ (hscope name d hname)⟩
  | unary s op u ih | run s u ih => exact ih hopen hscope
  | quote s label snippet body ih =>
    refine ⟨trivial, ih ?_ (hscope.append _)⟩
    -- the fragment is the first finding, and starts the unit of what is quoted
    refine List.cons_subset.2 ⟨List.mem_append_right _ (List.mem_singleton.2 rfl), ?_⟩
    exact List.Subset.trans hopen (List.subset_append_left _ _)
  | escape s kind body ih =>
    rw [findings]
    cases hfragments : position.fragments with
    | nil => trivial
    | cons owner outer =>
      refine ⟨trivial, ih ?_ (hscope.append _)⟩
      -- the units around the owner are among those that are open here
      intro u hu
      refine List.mem_append_left _ (hopen ?_)
      rw [Position.units, hfragments]
      exact List.mem_cons_of_mem _ hu
  | lambda s params body ih =>
    have hinner := units_positionInside (t := .lambda s params body) hopen
    rw [← placements_openingAt, List.map_filterMap] at hinner
    exact readyAll_lambda hinner hscope ih
  | call s callee args ihf iha =>
    rw [findings, readyAll_append]
    refine ⟨ihf hopen hscope, readyAll_findingsAll ?_ (hscope.append _) fun t ht => iha t ht⟩
    exact List.Subset.trans hopen (List.subset_append_left _ _)

/-- The walk through a program is in order. -/
theorem ready_root (t : Term) : ReadyAll t.rootUnits [] (t.findings ⟨t.id, []⟩ {}) := by
  have hscope : Scope.Within (Scope.mk []) [] := by
    intro name d hd
    cases hd
  cases t with
  | lambda site params body =>
    -- the main procedure starts over
    exact readyAll_lambda (List.Subset.refl _) hscope ready_findings
  | _ => exact ready_findings (List.Subset.refl _) hscope

end Term

/-! ## The definitions of a program -/

namespace Term

variable {t : Term} {u : Home} {d : NodeId}

/-- The definitions that are made at a node. -/
def ownDefinitions : Term → List NodeId
  | .define site .. | .host site .. => [site.id]
  | .lambda _ params _ => params.map (·.id)
  | _ => []

def definitions (t : Term) : List NodeId := t.nodes.flatMap ownDefinitions

/-- Definitions are among the identities of a term. -/
theorem definitions_sublist (t : Term) : t.definitions.Sublist t.allIds := by
  have hnode : ∀ node : Term, node.ownDefinitions.Sublist (node.id :: node.params.map (·.id)) := by
    intro node
    cases node with
    | define s name value => exact List.Sublist.refl _
    | host s name type => exact List.Sublist.refl _
    | lambda s params body => exact List.sublist_cons_self _ _
    | _ => exact List.nil_sublist _
  rw [definitions, allIds]
  induction t.nodes with
  | nil => exact .slnil
  | cons node rest ih => exact (hnode node).append ih

/-- The definitions at a node are made in the unit inside it. -/
theorem definitions_findingsAt (t : Term) (position : Position) (scope : Scope NodeId) :
    (t.findingsAt position scope).filterMap Finding.definition? =
      t.ownDefinitions.map fun d => ((t.positionInside position).home, d) := by
  cases t with
  | define s name value | assign s name value =>
    rw [findingsAt, filterMap_cons_toList, filterMap_givenTo fun _ _ => rfl]
    rfl
  | escape s kind body =>
    rw [findingsAt]
    cases position.fragments.head? <;> rfl
  | lambda s params body =>
    rw [findingsAt, List.filterMap_append, filterMap_procedureAt (fun _ _ => rfl), List.filterMap_map]
    simp [ownDefinitions, positionInside, Finding.definition?, Function.comp_def]
  | _ => rfl

/-- The walk finds the definitions of a term. -/
theorem perm_definitions (hinside : t.EscapesInside (openQuotes []).length) :
    (definedBy (t.findings ⟨t.id, []⟩ {})).Perm t.definitions := by
  refine (((perm_findings t.id hinside {}).filterMap Finding.definition?).map (·.2)).trans (.of_eq ?_)
  rw [definitions, ← t.map_snd_lineages [], ← map_stations t [] {}, List.map_map, List.flatMap_map,
    List.filterMap_flatMap, List.map_flatMap]
  refine List.flatMap_congr fun e _ => ?_
  rw [definitions_findingsAt, List.map_map]
  exact List.map_id _

/-- Where a definition is made. -/
theorem mem_made_iff (hinside : t.EscapesInside (openQuotes []).length) :
    (u, d) ∈ (t.findings ⟨t.id, []⟩ {}).filterMap Finding.definition? ↔
      ∃ path node, (path, node) ∈ t.lineages [] ∧ d ∈ node.ownDefinitions ∧
        (Position.along t.id (path ++ [node])).home = u := by
  have hperm := (perm_findings t.id hinside {}).filterMap Finding.definition?
  refine hperm.mem_iff.trans ?_
  simp only [List.filterMap_flatMap, definitions_findingsAt, ← Position.along_concat, List.mem_flatMap,
    List.mem_map, Prod.mk.injEq]
  constructor
  · rintro ⟨e, he, d', hd', hu, rfl⟩
    exact ⟨e.path, e.node, mem_lineages_of_stations he, hd', hu⟩
  · rintro ⟨path, node, hnode, hd, hu⟩
    rw [← map_stations t [] {}] at hnode
    rcases List.mem_map.1 hnode with ⟨e, he, heq⟩
    cases heq
    exact ⟨e, he, d, hd, hu, rfl⟩

/-- Where a definition is used. -/
theorem mem_used_iff (hids : t.ids.Nodup) (hinside : t.EscapesInside (openQuotes []).length) :
    (u, d) ∈ (t.findings ⟨t.id, []⟩ {}).filterMap Finding.use? ↔
      ∃ path node, (path, node) ∈ t.lineages [] ∧ (node.tag = .lookup ∨ node.tag = .assign) ∧
        (Position.along t.id path).home = u ∧ t.survey.uses.get? node.id = some d := by
  have hfound : (u, d) ∈ (t.findings ⟨t.id, []⟩ {}).filterMap Finding.use? ↔
      ∃ user, .use u user (some d) ∈ t.findings ⟨t.id, []⟩ {} := by
    rw [List.mem_filterMap]
    constructor
    · rintro ⟨x, hx, huse⟩
      unfold Finding.use? at huse
      split at huse
      · cases huse
        exact ⟨_, hx⟩
      · cases huse
    · rintro ⟨user, hx⟩
      exact ⟨_, hx, rfl⟩
  rw [hfound]
  simp only [mem_findings_iff hinside, use_mem_findingsAt, get?_uses_iff hids hinside]
  constructor
  · rintro ⟨user, e, he, hu, huser, name, hname, hd⟩
    refine ⟨e.path, e.node, mem_lineages_of_stations he, ?_, hu.symm, e, he, rfl, name, hname, hd.symm⟩
    unfold usedName? at hname
    split at hname
    · next heq => exact .inl (congrArg tag heq)
    · next heq => exact .inr (congrArg tag heq)
    · cases hname
  · rintro ⟨path, node, hnode, -, hu, e, he, hid, name, hname, hd⟩
    have hsame := lineage_unique hids (mem_lineages_of_stations he) hnode hid
    cases hsame
    exact ⟨e.node.id, e, he, hu.symm, rfl, name, hname, hd.symm⟩

/-- Units start without names. -/
theorem startsBlank_findingsAt {position : Position} {scope : Scope NodeId} {x : Finding}
    (h : x ∈ t.findingsAt position scope) : x.StartsBlank := by
  cases t with
  | define s name value | assign s name value =>
    rcases List.mem_cons.1 h with rfl | hx
    · trivial
    · rcases snippet_of_givenTo hx with ⟨definition, snippet, rfl⟩
      trivial
  | lookup | host | quote =>
    rw [List.mem_singleton.1 h]
    trivial
  | escape s kind body =>
    rcases List.mem_map.1 h with ⟨owner, -, rfl⟩
    trivial
  | lambda s params body =>
    rcases List.mem_append.1 h with hx | hx
    · unfold procedureAt at hx
      split at hx
      · rw [List.mem_singleton.1 hx]
        trivial
      · cases hx
    · rcases List.mem_map.1 hx with ⟨param, -, rfl⟩
      trivial
  | _ => cases h

/-- Before the walk nothing has been made or used. -/
theorem lists_start (t : Term) : t.start.Lists t.rootUnits [] [] := by
  have hblank : ∀ u names, t.start.names? u = some names → names = {} := by
    intro u names hnames
    cases u with
    | fragment id => cases hnames
    | procedure id =>
      rcases Option.map_eq_some_iff.1 hnames with ⟨r, hr, rfl⟩
      rw [start, Table.get?_insert] at hr
      split at hr
      · cases hr
        rfl
      · cases hr
  refine ⟨?_, ?_, ?_, ?_, List.forall_mem_nil _, List.forall_mem_nil _⟩
  · intro u hu
    unfold rootUnits at hu
    split at hu
    · cases hu
    · rw [List.mem_singleton.1 hu]
      simp [Survey.names?, start]
  · intro u d
    exact iff_of_false (fun h => by cases h) List.not_mem_nil
  · intro u names hnames
    rw [hblank u names hnames]
    exact ⟨List.nodup_nil, fun d => iff_of_false List.not_mem_nil List.not_mem_nil⟩
  · intro u names hnames
    rw [hblank u names hnames]
    exact ⟨List.nodup_nil, fun d => iff_of_false List.not_mem_nil fun h => List.not_mem_nil h.1⟩

/-- What the units of a program list. -/
theorem lists_survey (hids : t.allIds.Nodup) (hinside : t.EscapesInside (openQuotes []).length) :
    ∃ units, t.survey.Lists units ((t.findings ⟨t.id, []⟩ {}).filterMap Finding.definition?)
      ((t.findings ⟨t.id, []⟩ {}).filterMap Finding.use?) := by
  have hgrows := grows_root (t.ids_sublist_allIds.nodup hids)
  rw [← placements_findings hinside] at hgrows
  have hblank : ∀ x ∈ t.findings ⟨t.id, []⟩ {}, x.StartsBlank := by
    intro x hx
    rcases (mem_findings_iff hinside).1 hx with ⟨e, -, hx⟩
    exact startsBlank_findingsAt hx
  have honce : (definedBy (t.findings ⟨t.id, []⟩ {})).Nodup :=
    (perm_definitions hinside).nodup_iff.2 (t.definitions_sublist.nodup hids)
  exact ⟨_, t.lists_start.noteAll t.ready_root hgrows hblank honce⟩

end Term

/-! ## The names of the units of a program -/

namespace Blueprint

variable {t : Term} {types : TypeTable} {b : Blueprint}

/-- The names that a unit lists, if there is such a unit. -/
def names? (b : Blueprint) : Home → Option UnitNames
  | .procedure id => (if id = b.main.id then some b.main else b.procedures.get? id).map Procedure.names
  | .fragment id => (b.fragments.get? id).map Fragment.names

/-- After the walk, names do not change. -/
theorem names?_eq (hids : t.ids.Nodup) (hb : Blueprint.ofTerm t types = .ok b) (u : Home) :
    b.names? u = t.survey.names? u := by
  cases u with
  | procedure id =>
    obtain ⟨hmain, hothers⟩ := procedures_of_ofTerm hb
    rw [names?, Survey.names?, main_id hids hb, hothers]
    by_cases hid : id = t.id
    · rw [if_pos hid, hid, hmain]
    · rw [if_neg hid]
      simp [hid]
  | fragment id =>
    rcases ofTerm_eq_ok hb with ⟨linked, hlink, -, hfragments, -⟩
    have hsame := congrArg (Table.get? · id) (Survey.map_collect_link (fun _ f => f.names)
      (fun _ _ _ => rfl) (fun _ _ _ _ => rfl) hlink)
    simp only [Table.get?_map, ← hfragments] at hsame
    exact hsame

theorem uses_eq (hb : Blueprint.ofTerm t types = .ok b) : b.uses = t.survey.uses := by
  rcases ofTerm_eq_ok hb with ⟨linked, hlink, huses, -⟩
  rw [huses, Survey.link_uses hlink]

end Blueprint

/-- **The free and bound names of units are exact.** In a program with different identities that is split into
units, each definition (a `let`, a host binding or a parameter) is bound in one unit, and once. A unit binds the
definitions that are made in it. The names that are free in a unit are listed once; they are not bound there, and
they are the definitions of the names which are looked up or assigned to in this unit and are not bound in it. Every
use leads to a definition. -/
theorem free_and_bound_exact (t : Term) (types : TypeTable) (b : Blueprint) (hids : t.allIds.Nodup)
    (hb : Blueprint.ofTerm t types = .ok b) :
    (∀ d ∈ t.definitions, ∃ u names, b.names? u = some names ∧ names.bound.count d = 1 ∧
      ∀ u' names', b.names? u' = some names' → d ∈ names'.bound → u' = u) ∧
    (∀ u names, b.names? u = some names →
      (∀ d, d ∈ names.bound ↔ ∃ path node, (path, node) ∈ t.lineages [] ∧ d ∈ node.ownDefinitions ∧
        (Position.along t.id (path ++ [node])).home = u) ∧
      names.free.Nodup ∧ names.free.Disjoint names.bound ∧
      ∀ d, d ∈ names.free ↔ d ∉ names.bound ∧ ∃ path node, (path, node) ∈ t.lineages [] ∧
        (node.tag = .lookup ∨ node.tag = .assign) ∧ (Position.along t.id path).home = u ∧
        b.uses.get? node.id = some d) ∧
    ∀ user d, b.uses.get? user = some d → d ∈ t.definitions := by
  have hnodes := t.ids_sublist_allIds.nodup hids
  have hinside := Blueprint.escapesInside_of_ofTerm hb
  rcases Term.lists_survey hids hinside with ⟨units, hlists⟩
  simp only [Blueprint.names?_eq hnodes hb, Blueprint.uses_eq hb]
  refine ⟨fun d hd => ?_, fun u names hnames => ?_, fun user d huse => ?_⟩
  · -- the unit that the definition is made in
    rcases List.mem_map.1 ((Term.perm_definitions hinside).mem_iff.2 hd) with ⟨⟨u, d⟩, hmade, rfl⟩
    obtain ⟨names, hnames⟩ :=
      Option.ne_none_iff_exists'.1 (hlists.record u (hlists.started _ (List.mem_append_left _ hmade)))
    obtain ⟨hnodup, hbound⟩ := hlists.bound u names hnames
    refine ⟨u, names, hnames, List.count_eq_one_of_mem hnodup ((hbound d).2 hmade), fun u' names' hnames' hd' => ?_⟩
    have hmade' := ((hlists.bound u' names' hnames').2 d).1 hd'
    exact Option.some.inj (((hlists.home u' d).2 hmade').symm.trans ((hlists.home u d).2 hmade))
  · -- the two lists of a unit
    obtain ⟨-, hbound⟩ := hlists.bound u names hnames
    obtain ⟨hnodup, hfree⟩ := hlists.free u names hnames
    refine ⟨fun d => ?_, hnodup, fun d hd hd' => ?_, fun d => ?_⟩
    · rw [hbound, Term.mem_made_iff hinside]
    · exact ((hfree d).1 hd).2 ((hbound d).1 hd')
    · rw [hfree, hbound, and_comm, Term.mem_used_iff hnodes hinside]
  · -- a use is linked to a definition in scope, and those have been made
    rcases (Term.get?_uses_iff hnodes hinside).1 huse with ⟨e, he, -, name, hname, hd⟩
    have hfound : .use (Position.along t.id e.path).home e.node.id (some d) ∈ t.findings ⟨t.id, []⟩ {} :=
      (Term.mem_findings_iff hinside).2 ⟨e, he, Term.use_mem_findingsAt.2 ⟨rfl, rfl, name, hname, hd.symm⟩⟩
    have hmade := hlists.known _ (List.mem_filterMap.2 ⟨_, hfound, rfl⟩)
    exact (Term.perm_definitions hinside).mem_iff.1 hmade

/-- `let x = 1; fn (y) { x + y }; <let z = 2; %[x] + z>`: the function uses a name of the main procedure, and the
escape leads out of the quote. -/
def sharedNames : Term :=
  .seq ⟨0, {}⟩ (.define ⟨1, {}⟩ "x" (.literal ⟨2, {}⟩ (.int 1)))
    (.seq ⟨3, {}⟩
      (.lambda ⟨4, {}⟩ [⟨5, "y", none⟩] (.binary ⟨6, {}⟩ .add (.lookup ⟨7, {}⟩ "x") (.lookup ⟨8, {}⟩ "y")))
      (.quote ⟨9, {}⟩ none false (.seq ⟨10, {}⟩ (.define ⟨11, {}⟩ "z" (.literal ⟨12, {}⟩ (.int 2)))
        (.binary ⟨13, {}⟩ .add (.escape ⟨14, {}⟩ .persist (.lookup ⟨15, {}⟩ "x")) (.lookup ⟨16, {}⟩ "z")))))

/-- The function uses a name of the main procedure; the escape uses it too, but from outside the quote. -/
theorem free_and_bound_exact_shared : ∃ b,
    sharedNames.allIds.Nodup ∧ Blueprint.ofTerm sharedNames .empty = .ok b ∧
      b.names? (.procedure 0) = some ⟨[], [1]⟩ ∧ b.names? (.procedure 4) = some ⟨[1], [5]⟩ ∧
      b.names? (.fragment 9) = some ⟨[], [11]⟩ ∧
      (∀ u names, b.names? u = some names → 1 ∈ names.bound → u = .procedure 0) ∧
      (∃ path node, (path, node) ∈ sharedNames.lineages [] ∧ (node.tag = .lookup ∨ node.tag = .assign) ∧
        (Position.along 0 path).home = .procedure 4 ∧ b.uses.get? node.id = some 1) ∧
      ¬ ∃ path node, (path, node) ∈ sharedNames.lineages [] ∧ (node.tag = .lookup ∨ node.tag = .assign) ∧
        (Position.along 0 path).home = .fragment 9 ∧ b.uses.get? node.id = some 1 := by
  obtain ⟨b, hb, hmain, hfunction, hquote⟩ : ∃ b, Blueprint.ofTerm sharedNames .empty = .ok b ∧
      b.names? (.procedure 0) = some ⟨[], [1]⟩ ∧ b.names? (.procedure 4) = some ⟨[1], [5]⟩ ∧
      b.names? (.fragment 9) = some ⟨[], [11]⟩ :=
    ⟨_, rfl, rfl, rfl, rfl⟩
  have hids : sharedNames.allIds.Nodup := by decide
  obtain ⟨hbound, hlists, -⟩ := free_and_bound_exact sharedNames .empty b hids hb
  refine ⟨b, hids, hb, hmain, hfunction, hquote, fun u names hnames hmem => ?_, ?_, fun hused => ?_⟩
  · obtain ⟨unit, -, -, -, honly⟩ := hbound 1 (by decide)
    exact (honly u names hnames hmem).trans (honly (.procedure 0) _ hmain (by decide)).symm
  · exact (((hlists _ _ hfunction).2.2.2 1).1 (by decide)).2
  · have hfree := ((hlists _ _ hquote).2.2.2 1).2 ⟨by decide, hused⟩
    exact absurd hfree (by decide)

end Multistage
