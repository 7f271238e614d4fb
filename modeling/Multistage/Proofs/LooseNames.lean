import Mathlib.Data.List.Forall2
import Multistage.Eval.Interpreter
import Multistage.Proofs.Scopes
import Multistage.Proofs.Terms
import Multistage.Typing.Check

/-!
# Names that code does not carry with it

Code is a term, and the names in it mean what they mean where the code is spliced or run. So what the
checker says of a use of a name in a quote is certain only as far as the innermost quote around the use
goes, and there only as long as nothing has come between the binding and the use. Outside all quotes
nothing can come between.

Evaluation and the checker do not read code alike. The checker goes on with the names that are bound in
the value of a definition or of an assignment, or in a body that is run, and evaluation forgets them
again. A `Reader` is the one of the two that code is meant for.

`Term.spots` goes through a program and notes at each node what is known of the names there:

* `Term.misledUses` has the names that are used where the checker has a binding that evaluation has
  forgotten, or that are assigned where nothing binds them;
* `Term.looseNames` has the names that are used in some quote and not settled there, and
  `LooseNamesAgree` is the condition that quotes bind each of them at one type only;
* `Term.hiddenNames` has the loose names that a quote further in binds where code is spliced.
-/

namespace Multistage

/-- What is known of names at some place of a quote, newest first: the name is bound with `true`, and is
in doubt with `false`. -/
abbrev Known := List (String × Bool)

/-- A binding in the scope of the checker. -/
structure Seen where
  /-- the number of quotes around the binding -/
  level : Nat
  /-- whether evaluation has the binding too -/
  kept : Bool
  deriving DecidableEq

/-- The scope of the checker, newest first. -/
abbrev Sight := List (String × Seen)

/-- The bindings of a level, as the checker sees them. -/
def Known.seenAt (level : Nat) (known : Known) : Sight := known.map fun b => (b.1, ⟨level, b.2⟩)

/-- Those who read code. -/
inductive Reader where
  | evaluator
  | checker
  deriving DecidableEq

/-- What can happen to names in a quote: spliced code may bind some of them, and the reader of the code
may go on with names bound in values. -/
structure Leaks where
  names : List String
  reader : Reader

namespace Leaks

/-- A program as the checker finds it, with the splices not yet filled in. -/
def asWritten : Leaks := ⟨[], .checker⟩

/-- What a value or a body that is run does to the names known after it. -/
def spill (k : Leaks) (known : Known) : Known :=
  match k.reader with
  | .evaluator => []
  | .checker => known.map fun b => (b.1, false)

/-- Outside all quotes a program is evaluated, whoever reads the code that it makes. -/
def atLevel (k : Leaks) (level : Nat) : Leaks := if level = 0 then ⟨k.names, .evaluator⟩ else k

end Leaks

namespace Term

/-! ## Bindings that a term leaves -/

/-- The names that a term binds for what follows it. -/
def adds : Term → List String
  | .seq _ lhs rhs => rhs.adds ++ lhs.adds
  | .define _ name _ => [name]
  | .host _ name _ => [name]
  | _ => []

/-- The names that the checker takes to be bound by a term. -/
def rebinds : Term → List String
  | .seq _ lhs rhs => rhs.rebinds ++ lhs.rebinds
  | .define _ name value => name :: value.rebinds
  | .assign _ _ t | .run _ t => t.rebinds
  | .host _ name _ => [name]
  | _ => []

/-- The names that a term binds for a reader. -/
def bindsFor (t : Term) : Reader → List String
  | .evaluator => t.adds
  | .checker => t.rebinds

/-- The names that code can bind, for its reader, after a splice of it. -/
def leftBehind (reader : Reader) (t : Term) : List String :=
  t.nodes.flatMap fun
    | .quote _ _ _ body => body.bindsFor reader
    | _ => []

/-- What can happen to names in the quotes of a program. -/
def leaks (reader : Reader) (t : Term) : Leaks := ⟨t.leftBehind reader, reader⟩

/-- What a term does to the names known before it. A splice puts those in doubt that code may bind. -/
def effect (k : Leaks) : Term → Known
  | .seq _ lhs rhs => rhs.effect k ++ lhs.effect k
  | .define _ name value => (name, true) :: k.spill (value.effect k)
  | .assign _ _ t | .run _ t => k.spill (t.effect k)
  | .escape _ .splice _ | .escape _ .snippet _ => k.names.map (·, false)
  | .host _ name _ => [(name, true)]
  | _ => []

/-- What a term adds to the scope of the checker. A name is in doubt if evaluation forgets it. -/
def inScope (t : Term) : Known := t.effect .asWritten

end Term

/-! ## What is known at a node -/

/-- What is known of names at a place of a program: the scope of the checker, and what the innermost quote
binds before the place and what the quotes further out do. -/
structure Spot where
  sight : Sight
  here : Known
  outer : List Known

namespace Spot

/-- The place where a program starts. -/
def start : Spot := ⟨[], [], []⟩

/-- The number of quotes around a place. -/
def level (s : Spot) : Nat := s.outer.length

/-- The place after bindings: `seen` are those that the checker adds to its scope. -/
def bind (s : Spot) (seen known : Known) : Spot :=
  ⟨seen.seenAt s.level ++ s.sight, known ++ s.here, s.outer⟩

/-- The place after a term. -/
def after (s : Spot) (k : Leaks) (t : Term) : Spot := s.bind t.inScope (t.effect (k.atLevel s.level))

/-- Inside a quote nothing is bound yet. -/
def quoted (s : Spot) : Spot := ⟨s.sight, [], s.here :: s.outer⟩

/-- Inside a function its parameters are bound, the last one first. -/
def called (s : Spot) (params : List Param) : Spot :=
  s.bind (params.map fun param => (param.name, true)).reverse
    (params.map fun param => (param.name, true)).reverse

/-- A quote further in binds the name, for the checker. -/
def hides (s : Spot) (name : String) : Bool :=
  match Scope.newest? name s.sight with
  | some seen => s.level < seen.level
  | none => false

/-- The checker has the same scope at two places, under as many quotes. -/
structure Alike (s s' : Spot) : Prop where
  sight : s.sight = s'.sight
  level : s.level = s'.level

theorem Alike.bind {s s' : Spot} (h : s.Alike s') (seen known known' : Known) :
    (s.bind seen known).Alike (s'.bind seen known') where
  sight := by rw [Spot.bind, Spot.bind, h.sight, h.level]
  level := h.level

end Spot

theorem exists_mem_zip_of_forall₂ {α β γ : Type} {R : β → γ → Prop} {as : List α} {bs : List β}
    {cs : List γ} {a : α} {b : β} (h : List.Forall₂ R bs cs) (hmem : (a, b) ∈ as.zip bs) :
    ∃ c, (a, c) ∈ as.zip cs ∧ R b c := by
  induction h generalizing as with
  | nil => simp at hmem
  | cons hhead _ ih =>
    cases as with
    | nil => cases hmem
    | cons first rest =>
      rcases List.mem_cons.1 hmem with heq | hmem
      · cases heq
        exact ⟨_, List.mem_cons_self, hhead⟩
      · rcases ih hmem with ⟨c, hc, hR⟩
        exact ⟨c, List.mem_cons_of_mem _ hc, hR⟩

theorem mem_zip_map_const {α β : Type} {as : List α} {a : α} {b : β} (h : a ∈ as) :
    (a, b) ∈ as.zip (as.map fun _ => b) := by
  induction as with
  | nil => cases h
  | cons first rest ih =>
    rcases List.mem_cons.1 h with rfl | h
    · exact List.mem_cons_self
    · exact List.mem_cons_of_mem _ (ih h)

namespace Term

/-- The places of the children of a node. An escape leads back to the quote around the escaped one. -/
def inside (k : Leaks) (s : Spot) : Term → List Spot
  | .seq _ lhs _ | .binary _ _ lhs _ => [s, s.after k lhs]
  | .quote .. => [s.quoted]
  | .escape .. =>
    match s.outer with
    | [] => []
    | known :: outer => [⟨s.sight, known, outer⟩]
  | .lambda _ params _ => [s.called params]
  | t => t.children.map fun _ => s

/-- The nodes of a term, each with what is known of names there. -/
def spots (k : Leaks) : Term → Spot → List (Spot × Term) :=
  fold fun t below s => (s, t) :: (List.zipWith (fun visit place => visit place) below (t.inside k s)).flatten

theorem spots_eq (k : Leaks) (t : Term) (s : Spot) :
    t.spots k s = (s, t) :: (t.children.zip (t.inside k s)).flatMap fun e => e.1.spots k e.2 := by
  rw [spots, fold_eq, List.zipWith_map_left, List.flatMap_def, List.zip, List.map_zipWith]

theorem forall_spots {k : Leaks} {t : Term} {s : Spot} {p : Spot × Term → Prop} :
    (∀ e ∈ t.spots k s, p e) ↔
      p (s, t) ∧ ∀ e ∈ t.children.zip (t.inside k s), ∀ e' ∈ e.1.spots k e.2, p e' := by
  rw [spots_eq, List.forall_mem_cons]
  simp only [List.mem_flatMap, forall_exists_index, and_imp]
  exact and_congr_right fun _ => ⟨fun h e he e' => h e' e he, fun h e' e he => h e he e'⟩

/-- The places inside a node are at the level that its tag gives. -/
theorem level_of_mem_inside {k : Leaks} {t : Term} {s s' : Spot} (h : s' ∈ t.inside k s) :
    (s'.level : Int) = t.levelBelow s.level := by
  cases t with
  | seq | binary =>
    rcases List.mem_pair.1 h with rfl | rfl
    · rfl
    · rfl
  | quote =>
    cases List.mem_singleton.1 h
    simp [levelBelow, Spot.level, Spot.quoted]
  | escape s kind t =>
    simp only [inside] at h
    simp only [Spot.level, levelBelow]
    split at h
    · cases h
    · next known outer houter =>
      cases List.mem_singleton.1 h
      simp [houter]
  | lambda =>
    cases List.mem_singleton.1 h
    rfl
  | _ =>
    rcases List.mem_map.1 h with ⟨_, -, rfl⟩
    rfl

/-- A node stands at the level of its place. -/
theorem mem_nodesAt_of_spots {k : Leaks} {t node : Term} {s place : Spot} (h : (place, node) ∈ t.spots k s) :
    ((place.level : Int), node) ∈ t.nodesAt s.level := by
  induction t using induct_children generalizing s with
  | step t ih =>
    rw [spots_eq] at h
    rcases List.mem_cons.1 h with heq | h
    · cases heq
      rw [nodesAt_eq]
      exact List.mem_cons_self
    · rcases List.mem_flatMap.1 h with ⟨⟨child, inner⟩, hmem, h⟩
      rcases List.of_mem_zip hmem with ⟨hchild, hinner⟩
      have hbelow := ih child hchild h
      rw [level_of_mem_inside hinner] at hbelow
      exact nodesAt_child hchild s.level hbelow

/-- Places that are alike have places inside that are alike, whatever leaks. -/
theorem inside_alike {k k' : Leaks} {s s' : Spot} (h : s.Alike s') (t : Term) :
    List.Forall₂ Spot.Alike (t.inside k s) (t.inside k' s') := by
  cases t with
  | seq s₀ l r | binary s₀ op l r => exact .cons h (.cons (h.bind _ _ _) .nil)
  | quote => exact .cons ⟨h.sight, congrArg (· + 1) h.level⟩ .nil
  | lambda s₀ params body => exact .cons (h.bind _ _ _) .nil
  | escape s₀ kind body =>
    have hlevel := h.level
    unfold Spot.level at hlevel
    simp only [inside]
    cases houter : s.outer <;> cases houter' : s'.outer <;> rw [houter, houter'] at hlevel
    · exact .nil
    · cases hlevel
    · cases hlevel
    · exact .cons ⟨h.sight, Nat.succ.inj hlevel⟩ .nil
  | _ =>
    refine List.forall₂_map_left_iff.2 (List.forall₂_map_right_iff.2 (List.forall₂_same.2 ?_))
    intro _ _
    exact h

/-- The scope of the checker does not depend on what splices may do. -/
theorem exists_spots_alike {k : Leaks} (k' : Leaks) {t node : Term} {s s' place : Spot} (h : s.Alike s')
    (hplace : (place, node) ∈ t.spots k s) :
    ∃ place', (place', node) ∈ t.spots k' s' ∧ place.Alike place' := by
  induction t using induct_children generalizing s s' with
  | step t ih =>
    rw [spots_eq] at hplace
    rw [spots_eq k']
    rcases List.mem_cons.1 hplace with heq | hplace
    · cases heq
      exact ⟨s', List.mem_cons_self, h⟩
    · rcases List.mem_flatMap.1 hplace with ⟨⟨child, inner⟩, hmem, hplace⟩
      -- the two walks come to the child at alike places
      rcases exists_mem_zip_of_forall₂ (inside_alike h t) hmem with ⟨inner', hmem', hinner⟩
      rcases ih child (List.of_mem_zip hmem).1 hinner hplace with ⟨place', hplace', hsame⟩
      exact ⟨place', List.mem_cons_of_mem _ (List.mem_flatMap.2 ⟨_, hmem', hplace'⟩), hsame⟩

/-! ## Uses of names -/

/-- The name that a node uses, and whether it assigns to it. -/
def use? : Term → Option (String × Bool)
  | .lookup _ name => some (name, false)
  | .assign _ name _ => some (name, true)
  | _ => none

end Term

/-- A use of a name. -/
structure Use where
  name : String
  assigned : Bool
  place : Spot

namespace Use

/-- The checker has a binding that evaluation has forgotten, or has none where the name is assigned. -/
def misled (u : Use) : Bool :=
  match Scope.newest? u.name u.place.sight with
  | some seen => !seen.kept
  | none => u.assigned

/-- A use in a quote is open unless the name is known there. -/
def isOpen (u : Use) : Bool :=
  0 < u.place.level && Scope.newest? u.name u.place.here != some true

/-- An open use of a name that may not be bound at all where the code ends up. -/
def stray (u : Use) : Bool :=
  u.isOpen && !u.place.here.contains (u.name, true) &&
    (u.assigned || (HostFunction.intrinsic? u.name).isNone)

end Use

namespace Term

/-- The uses of names in a program, as the reader of its code has them. -/
def uses (reader : Reader) (t : Term) : List Use :=
  (t.spots (t.leaks reader) .start).filterMap fun e => e.2.use?.map fun u => ⟨u.1, u.2, e.1⟩

/-- The names that are used where the checker has been misled. -/
def misledUses (t : Term) : List String := ((t.uses .evaluator).filter (·.misled)).map (·.name)

/-- The names whose meaning can depend on where code is spliced or run. -/
def looseNames (reader : Reader) (t : Term) : List String :=
  ((t.uses reader).filter (·.isOpen)).map (·.name)

/-- The names that may turn out not to be bound. -/
def strayNames (reader : Reader) (t : Term) : List String :=
  ((t.uses reader).filter (·.stray)).map (·.name)

/-- The loose names that are assigned where they are not settled. -/
def looseTargets (reader : Reader) (t : Term) : List String :=
  ((t.uses reader).filter fun u => u.isOpen && u.assigned).map (·.name)

/-- The loose names that a quote further in binds where code is spliced, and that the code would find
there. -/
def hiddenNames (t : Term) : List String :=
  (t.spots (t.leaks .checker) .start).flatMap fun e =>
    match e.2 with
    | .escape _ .splice _ | .escape _ .snippet _ => (t.looseNames .checker).filter e.1.hides
    | _ => []

/-! ## Types of loose names -/

/-- The names that a node binds, with their types. -/
def boundBy (types : TypeTable) : Term → List (String × Ty)
  | .define site name _ => ((types.get? site.id).map fun j => (name, j.type)).toList
  | .lambda site params _ => (Prelude.general.paramRule site.id params).toOption.getD []
  | _ => []

/-- The names that the quotes of a program bind and the intrinsics, each with all its types. -/
def bindings (types : TypeTable) (t : Term) : List (String × Ty) :=
  (t.nodesAt 0).flatMap (fun e => if 0 < e.1 then e.2.boundBy types else []) ++ Prelude.general.intrinsics

end Term

/-- Each of some names has one type in all quotes of a program. -/
def BoundAtOneType (types : TypeTable) (t : Term) (names : List String) : Prop :=
  ∀ name ∈ names, ∀ a ∈ t.bindings types, ∀ b ∈ t.bindings types,
    a.1 = name → b.1 = name → a.2 = b.2

instance (types : TypeTable) (t : Term) (names : List String) :
    Decidable (BoundAtOneType types t names) := by
  unfold BoundAtOneType
  infer_instance

/-- Every loose name has one type in all quotes of the program. -/
def LooseNamesAgree (reader : Reader) (types : TypeTable) (t : Term) : Prop :=
  BoundAtOneType types t (t.looseNames reader)

instance (reader : Reader) (types : TypeTable) (t : Term) : Decidable (LooseNamesAgree reader types t) := by
  unfold LooseNamesAgree
  infer_instance

/-! ## Names in effects -/

theorem Known.newest?_seenAt (level : Nat) (known : Known) (name : String) :
    Scope.newest? name (known.seenAt level) = (Scope.newest? name known).map (⟨level, ·⟩) :=
  Scope.newest?_map (Seen.mk level) name known

theorem Leaks.newest?_spill (known : Known) (name : String) :
    Scope.newest? name (asWritten.spill known) = (Scope.newest? name known).map fun _ => false :=
  Scope.newest?_map (fun _ => false) name known

namespace Term

theorem map_fst_spill (known : Known) (names : List String) :
    ((⟨names, .checker⟩ : Leaks).spill known).map (·.1) = known.map (·.1) := by
  simp [Leaks.spill]

/-- A splice adds nothing to the scope of the checker. -/
@[simp] theorem inScope_escape (s : Site) (kind : EscapeKind) (t : Term) : (escape s kind t).inScope = [] := by
  cases kind <;> rfl

/-- The checker takes the names to be bound that it adds to its scope. -/
theorem map_fst_inScope (t : Term) : t.inScope.map (·.1) = t.rebinds := by
  unfold inScope
  induction t with
  | seq s l r ihl ihr => simp [effect, rebinds, ihl, ihr]
  | define s name t ih => simp [effect, rebinds, Leaks.asWritten, map_fst_spill, ← ih]
  | assign s name t ih | run s t ih => simp [effect, rebinds, Leaks.asWritten, map_fst_spill, ← ih]
  | escape s kind t ih => cases kind <;> simp [effect, rebinds, Leaks.asWritten]
  | _ => simp [effect, rebinds]

/-- A name that a term binds for certain is added to the scope of the checker. -/
theorem mem_inScope_of_effect {k : Leaks} {t : Term} {name : String} (h : (name, true) ∈ t.effect k) :
    (name, true) ∈ t.inScope := by
  unfold inScope
  have hspill : ∀ known : Known, (name, true) ∉ k.spill known := by
    intro known
    unfold Leaks.spill
    split <;> simp
  induction t with
  | seq s l r ihl ihr =>
    rcases List.mem_append.1 h with h | h
    · exact List.mem_append_left _ (ihr h)
    · exact List.mem_append_right _ (ihl h)
  | define s bound t ih =>
    rcases List.mem_cons.1 h with heq | h
    · cases heq
      exact List.mem_cons_self
    · exact absurd h (hspill _)
  | assign s target t ih | run s t ih => exact absurd h (hspill _)
  | escape s kind t ih => cases kind <;> simp [effect] at h
  | host s bound written => exact h
  | _ => cases h

/-- What the checker adds to its scope is known or in doubt for a reader like it, whatever code may bind. -/
theorem inScope_subset_effect (t : Term) (names : List String) : t.inScope ⊆ t.effect ⟨names, .checker⟩ := by
  unfold inScope
  induction t with
  | seq s l r ihl ihr => exact List.append_subset.2 ⟨List.subset_append_of_subset_left _ ihr,
      List.subset_append_of_subset_right _ ihl⟩
  | define s name t ih => exact List.cons_subset_cons _ (List.map_subset _ ih)
  | assign s name t ih | run s t ih => exact List.map_subset _ ih
  | escape s kind t ih => cases kind <;> simp [effect, Leaks.asWritten]
  | _ => simp [effect]

/-- A term binds for a reader what it leaves bound itself; what else it puts in doubt may come from code. -/
theorem effect_names {k : Leaks} {t : Term} {b : String × Bool} (h : b ∈ t.effect k) :
    b.1 ∈ t.bindsFor k.reader ∨ b.1 ∈ k.names := by
  obtain ⟨names, reader⟩ := k
  induction t generalizing b with
  | seq s l r ihl ihr =>
    rcases List.mem_append.1 h with h | h
    · cases reader <;> exact (ihr h).imp_left (List.mem_append_left _)
    · cases reader <;> exact (ihl h).imp_left (List.mem_append_right _)
  | define s name t ih =>
    rcases List.mem_cons.1 h with rfl | h
    · cases reader <;> exact .inl List.mem_cons_self
    · -- only the checker sees what the value of a definition binds
      cases reader with
      | evaluator => cases h
      | checker =>
        rcases List.mem_map.1 h with ⟨b', hb', rfl⟩
        exact (ih hb').imp_left (List.mem_cons_of_mem _)
  | assign s name t ih | run s t ih =>
    cases reader with
    | evaluator => cases h
    | checker =>
      rcases List.mem_map.1 h with ⟨b', hb', rfl⟩
      have hnames := ih hb'
      exact hnames
  | escape s kind t ih =>
    -- code that is spliced may bind any of the leaked names
    cases kind with
    | persist => cases h
    | splice | snippet =>
      rcases List.mem_map.1 h with ⟨name, hname, rfl⟩
      exact .inr hname
  | host s name written =>
    cases List.mem_singleton.1 h
    cases reader <;> exact .inl List.mem_cons_self
  | _ => cases h

end Term

end Multistage
