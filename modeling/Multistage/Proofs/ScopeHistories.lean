import Mathlib.Data.List.Induction
import Multistage.Proofs.Scopes

/-!
# Scopes as finite maps

A scope is made from the empty one by updates: bindings are added, one or several at a time, or all values
are changed. What can be seen of it depends only on its history, the bindings in the order in which they
were added, each with the value that the changes after it have left.

* `Scope.history` is read off the updates, without a scope;
* `Scope.layers_build`: the frames of a scope hold its history;
* `Scope.mem_bindings_iff` and `Scope.bindings_eq_unhidden`: the two views of a scope agree;
* `Scope.scopes_are_finite_maps` puts it all together.

A list of bindings starts with the newest in `layers` and `visible`, and with the oldest in `history`,
`unhidden` and in a frame.
-/

namespace Multistage.Scope

variable {α β : Type}

/-! ## Updates -/

/-- A way to make a scope from another one. -/
inductive Update (α : Type) where
  | extend (name : String) (value : α)
  | extendAll (frame : List (String × α))
  | map (f : α → α)

namespace Update

/-- Carry out an update. -/
def apply (s : Scope α) : Update α → Scope α
  | .extend name value => s.extend name value
  | .extendAll frame => s.extendAll frame
  | .map f => s.map f

/-- The bindings that an update adds. -/
def added : Update α → List (String × α)
  | .extend name value => [(name, value)]
  | .extendAll frame => frame
  | .map _ => []

/-- What an update does to the values that are there. -/
def change : Update α → α → α
  | .map f => f
  | _ => id

end Update

/-- The scope that updates make, the first one first. -/
def build (updates : List (Update α)) : Scope α := updates.foldl Update.apply empty

/-- All bindings that updates add, the oldest first, each with the value that the later updates leave. -/
def history : List (Update α) → List (String × α)
  | [] => []
  | update :: later =>
    (update.added.map fun (name, value) => (name, later.foldl (fun v u => u.change v) value)) ++
      history later

/-- The bindings that no later one hides, the oldest first. -/
def unhidden : List (String × α) → List (String × α)
  | [] => []
  | binding :: later =>
    if binding.1 ∈ later.map Prod.fst then unhidden later else binding :: unhidden later

theorem build_concat (updates : List (Update α)) (update : Update α) :
    build (updates ++ [update]) = update.apply (build updates) := by
  rw [build, List.foldl_append]
  rfl

/-- A last update changes what has been bound before, and binds its own names after that. -/
theorem history_concat (updates : List (Update α)) (update : Update α) :
    history (updates ++ [update]) =
      ((history updates).map fun (name, value) => (name, update.change value)) ++ update.added := by
  induction updates with
  | nil => simp [history]
  | cons first rest ih =>
    rw [List.cons_append, history, ih, history, List.map_append, List.map_map, List.append_assoc]
    congr 1
    apply List.map_congr_left
    intro binding _
    simp

/-! ## The bindings of a scope -/

/-- All bindings of a scope, hidden or not, the newest first. -/
def layers (s : Scope α) : List (String × α) := s.frames.flatMap List.reverse

theorem layers_extendAll (s : Scope α) (frame : List (String × α)) :
    (s.extendAll frame).layers = frame.reverse ++ s.layers := rfl

theorem layers_map (f : α → β) (s : Scope α) :
    (s.map f).layers = s.layers.map fun (name, value) => (name, f value) := by
  rcases s with ⟨frames⟩
  simp only [layers, map, List.flatMap_map, List.map_flatMap, List.map_reverse]

theorem layers_apply (s : Scope α) (update : Update α) :
    (update.apply s).layers =
      update.added.reverse ++ s.layers.map fun (name, value) => (name, update.change value) := by
  cases update with
  | extend name value => simp [Update.apply, extend, layers_extendAll, Update.added, Update.change]
  | extendAll frame => simp [Update.apply, layers_extendAll, Update.added, Update.change]
  | map f => exact layers_map f s

/-- The frames of a scope hold its history. -/
theorem layers_build (updates : List (Update α)) :
    (build updates).layers = (history updates).reverse := by
  induction updates using List.reverseRecOn with
  | nil => rfl
  | append_singleton updates update ih =>
    rw [build_concat, layers_apply, ih, history_concat, List.reverse_append, List.map_reverse]

/-! ## Looking names up -/

/-- A name is looked up among all layers, the newest first. -/
theorem lookup?_eq_newest? (s : Scope α) (name : String) : s.lookup? name = newest? name s.layers := by
  rcases s with ⟨frames⟩
  induction frames with
  | nil => rfl
  | cons frame rest ih =>
    have hhead := lookup?_extendAll ⟨rest⟩ frame name
    rw [extendAll] at hhead
    rw [hhead, ih]
    exact (newest?_append name frame.reverse _).symm

/-- What is found is the first binding of the name. -/
theorem newest?_eq_some_iff {name : String} {value : α} {bs : List (String × α)} :
    newest? name bs = some value ↔
      ∃ newer older, bs = newer ++ (name, value) :: older ∧ name ∉ newer.map Prod.fst := by
  constructor
  · intro h
    induction bs with
    | nil => cases h
    | cons b rest ih =>
      rcases b with ⟨bound, first⟩
      by_cases heq : bound = name
      · rw [newest?, if_pos heq] at h
        cases h
        exact ⟨[], rest, by rw [heq]; rfl, List.not_mem_nil⟩
      · rw [newest?, if_neg heq] at h
        obtain ⟨newer, older, rfl, hnew⟩ := ih h
        refine ⟨(bound, first) :: newer, older, rfl, ?_⟩
        rw [List.map_cons, List.mem_cons, not_or]
        exact ⟨Ne.symm heq, hnew⟩
  · rintro ⟨newer, older, rfl, hnew⟩
    have hnone : newest? name newer = none := by
      cases hfound : newest? name newer with
      | none => rfl
      | some v => exact absurd (List.mem_map_of_mem (f := Prod.fst) (mem_of_newest? hfound)) hnew
    rw [newest?_append, hnone, newest?, if_pos rfl]
    rfl

theorem newest?_eq_none_iff {name : String} {bs : List (String × α)} :
    newest? name bs = none ↔ name ∉ bs.map Prod.fst := by
  constructor
  · intro hnone hmem
    obtain ⟨⟨bound, value⟩, hbinding, rfl⟩ := List.mem_map.1 hmem
    exact newest?_ne_none hbinding hnone
  · intro hnot
    cases hfound : newest? name bs with
    | none => rfl
    | some v => exact absurd (List.mem_map_of_mem (f := Prod.fst) (mem_of_newest? hfound)) hnot

/-! ## Bindings that are not hidden -/

/-- Of the names that were seen only the set matters. -/
theorem visible_congr {seen seen' : List String} (h : ∀ name, name ∈ seen ↔ name ∈ seen')
    (bs : List (String × α)) : visible seen bs = visible seen' bs := by
  induction bs generalizing seen seen' with
  | nil => rfl
  | cons b rest ih =>
    rcases b with ⟨name, value⟩
    have hrest := ih h
    have hmore : visible (name :: seen) rest = visible (name :: seen') rest := by
      apply ih
      intro other
      rw [List.mem_cons, List.mem_cons, h]
    simp only [visible, h, hrest, hmore]

/-- Newer bindings hide older ones of the same name. -/
theorem visible_append (seen : List String) (as bs : List (String × α)) :
    visible seen (as ++ bs) = visible seen as ++ visible (as.map Prod.fst ++ seen) bs := by
  induction as generalizing seen with
  | nil => rfl
  | cons a rest ih =>
    rcases a with ⟨name, value⟩
    simp only [List.cons_append, visible, List.map_cons]
    split
    · next hseen =>
      rw [ih]
      congr 1
      apply visible_congr
      intro other
      simp only [List.mem_cons, List.mem_append]
      constructor
      · exact Or.inr
      · rintro (rfl | hother)
        · exact Or.inr hseen
        · exact hother
    · rw [ih, List.cons_append]
      congr 2
      apply visible_congr
      intro other
      simp only [List.mem_cons, List.mem_append]
      exact or_left_comm

/-- A binding is visible if it is the newest of its name, and the name is not hidden already. -/
theorem mem_visible_iff {seen : List String} {bs : List (String × α)} {name : String} {value : α} :
    (name, value) ∈ visible seen bs ↔ name ∉ seen ∧ newest? name bs = some value := by
  induction bs generalizing seen with
  | nil => simp [visible, newest?]
  | cons b rest ih =>
    rcases b with ⟨bound, first⟩
    by_cases hseen : bound ∈ seen
    · rw [visible, if_pos hseen, ih, newest?]
      by_cases heq : bound = name
      · subst heq
        simp [hseen]
      · rw [if_neg heq]
    · rw [visible, if_neg hseen, List.mem_cons, ih, newest?]
      by_cases heq : bound = name
      · subst heq
        simp [hseen, eq_comm]
      · simp [heq, Ne.symm heq]

/-- No name is visible twice. -/
theorem nodup_visible (seen : List String) (bs : List (String × α)) :
    ((visible seen bs).map Prod.fst).Nodup := by
  induction bs generalizing seen with
  | nil => exact List.nodup_nil
  | cons b rest ih =>
    rcases b with ⟨name, value⟩
    rw [visible]
    split
    · exact ih seen
    · rw [List.map_cons, List.nodup_cons]
      refine ⟨?_, ih (name :: seen)⟩
      -- what follows leaves the name out, since it has been seen
      intro hmem
      obtain ⟨⟨bound, other⟩, hbinding, rfl⟩ := List.mem_map.1 hmem
      exact (mem_visible_iff.1 hbinding).1 List.mem_cons_self

theorem visible_map (f : α → β) (seen : List String) (bs : List (String × α)) :
    visible seen (bs.map fun (name, value) => (name, f value)) =
      (visible seen bs).map fun (name, value) => (name, f value) := by
  induction bs generalizing seen with
  | nil => rfl
  | cons b rest ih =>
    rcases b with ⟨name, value⟩
    simp only [List.map_cons, visible, ih]
    split
    · rfl
    · rfl

/-- From the newest binding on, a binding is kept if its name was not seen; from the oldest on, if its name
does not come again. -/
theorem visible_reverse (bs : List (String × α)) : visible [] bs.reverse = (unhidden bs).reverse := by
  induction bs with
  | nil => rfl
  | cons b later ih =>
    rcases b with ⟨name, value⟩
    rw [List.reverse_cons, visible_append, ih, unhidden, List.append_nil, visible, visible]
    have hsame : name ∈ later.reverse.map Prod.fst ↔ name ∈ later.map Prod.fst := by
      rw [List.map_reverse, List.mem_reverse]
    by_cases hlater : name ∈ later.map Prod.fst
    · rw [if_pos hlater, if_pos (hsame.2 hlater), List.append_nil]
    · rw [if_neg hlater, if_neg (fun h => hlater (hsame.1 h)), List.reverse_cons]
      rfl

/-- The bindings that are listed are those that are found. -/
theorem mem_bindings_iff {s : Scope α} {name : String} {value : α} :
    (name, value) ∈ s.bindings ↔ s.lookup? name = some value := by
  rw [bindings, mem_visible_iff, lookup?_eq_newest?]
  exact and_iff_right List.not_mem_nil

theorem bindings_eq_unhidden (updates : List (Update α)) :
    (build updates).bindings = (unhidden (history updates)).reverse := by
  rw [← visible_reverse, ← layers_build]
  rfl

theorem bindings_map (f : α → β) (s : Scope α) :
    (s.map f).bindings = s.bindings.map fun (name, value) => (name, f value) := by
  have hlayers := layers_map f s
  rw [layers, layers] at hlayers
  rw [bindings, hlayers, visible_map]
  rfl

/-- A scope contains the names of its visible bindings. -/
theorem contains_iff {s : Scope α} {name : String} :
    s.contains name = true ↔ name ∈ s.bindings.map Prod.fst := by
  rw [contains, Option.isSome_iff_exists]
  constructor
  · rintro ⟨value, hvalue⟩
    exact List.mem_map_of_mem (f := Prod.fst) (mem_bindings_iff.2 hvalue)
  · intro hmem
    obtain ⟨⟨bound, value⟩, hbinding, rfl⟩ := List.mem_map.1 hmem
    exact ⟨value, mem_bindings_iff.1 hbinding⟩

/-- Scopes behave as finite maps, whatever updates have made them. A name has the value of the binding of it
that was added last, as the later changes have left it, and no value if it was never bound. The bindings
that are not hidden are listed from the newest to the oldest, each name once and with the value that it has;
a name is bound if it is listed; and a change of all values changes the values in the list. -/
theorem scopes_are_finite_maps (updates : List (Update α)) :
    (∀ name value, (build updates).lookup? name = some value ↔
      ∃ older newer, history updates = older ++ (name, value) :: newer ∧
        name ∉ newer.map Prod.fst) ∧
    (∀ name, (build updates).lookup? name = none ↔ name ∉ (history updates).map Prod.fst) ∧
    ((build updates).bindings.map Prod.fst).Nodup ∧
    (∀ name value, (name, value) ∈ (build updates).bindings ↔
      (build updates).lookup? name = some value) ∧
    (build updates).bindings = (unhidden (history updates)).reverse ∧
    (∀ name, (build updates).contains name = true ↔ name ∈ (build updates).bindings.map Prod.fst) ∧
    ∀ (β : Type) (f : α → β), ((build updates).map f).bindings =
      (build updates).bindings.map fun (name, value) => (name, f value) := by
  refine ⟨?_, ?_, nodup_visible [] _, fun _ _ => mem_bindings_iff, bindings_eq_unhidden updates,
    fun _ => contains_iff, fun _ f => bindings_map f _⟩
  · intro name value
    rw [lookup?_eq_newest?, layers_build, newest?_eq_some_iff]
    constructor
    · rintro ⟨newer, older, hsplit, hnew⟩
      refine ⟨older.reverse, newer.reverse, ?_, ?_⟩
      · rw [← List.reverse_inj, hsplit]
        simp
      · rwa [List.map_reverse, List.mem_reverse]
    · rintro ⟨older, newer, hsplit, hnew⟩
      refine ⟨newer.reverse, older.reverse, by simp [hsplit], ?_⟩
      rwa [List.map_reverse, List.mem_reverse]
  · intro name
    rw [lookup?_eq_newest?, layers_build, newest?_eq_none_iff, List.map_reverse, List.mem_reverse]

/-- A name that is bound twice in a frame and again later, with a change in between. -/
example :
    (build [.extendAll [("x", 1), ("y", 2), ("x", 3)], .map (· * 10), .extend "y" 4]).bindings =
      [("y", 4), ("x", 30)] := by
  decide

end Multistage.Scope
