import Multistage.Proofs.CodeInvariants

/-!
# Held references stay in bounds

A persist escape keeps a value and leaves a held reference to it, by number, in the code it builds. Code
is spliced into other code, put into slots, captured and run, and each time the numbers have to fit the
list of values that goes with the code.

The invariant is `heldInvariant`: the held references in code and in functions stand at the level of the
code itself and count values that are there, and the same holds of the values held.

Main statement: `held_references_in_bounds`.
-/

namespace Multistage

/-! ## References and their levels -/

namespace Term

/-- The held references in a term at `level`, each with the level that it stands at. -/
def heldRefs : Term → (level : Int) → List (Int × Nat) :=
  fold fun t below level =>
    match t with
    | .held _ index => [(level, index)]
    | t => below.flatMap fun refs => refs (t.levelBelow level)

/-- In a term at `level`, every held reference stands at level 0 and counts one of `count` values. -/
def HeldBelow (count : Nat) (level : Int) (t : Term) : Prop :=
  ∀ ref ∈ t.heldRefs level, ref.1 = 0 ∧ ref.2 < count

theorem heldRefs_eq {t : Term} (h : t.tag ≠ .held) (level : Int) :
    t.heldRefs level = t.children.flatMap fun child => child.heldRefs (t.levelBelow level) := by
  rw [heldRefs, fold_eq]
  split
  · exact absurd rfl h
  · rw [List.flatMap_map]

/-- A node that is no held reference has what its parts have. -/
theorem heldBelow_iff {t : Term} (h : t.tag ≠ .held) {count : Nat} {level : Int} :
    t.HeldBelow count level ↔ ∀ child ∈ t.children, child.HeldBelow count (t.levelBelow level) := by
  unfold HeldBelow
  rw [heldRefs_eq h]
  simp only [List.mem_flatMap]
  constructor
  · intro hall child hchild ref href
    exact hall ref ⟨child, hchild, href⟩
  · rintro hall ref ⟨child, hchild, href⟩
    exact hall child hchild ref href

/-- A held reference has no parts. -/
theorem tag_ne_held {t child : Term} (h : child ∈ t.children) : t.tag ≠ .held := by
  intro htag
  cases t <;> cases htag
  exact absurd h List.not_mem_nil

theorem HeldBelow.child {t child : Term} {count : Nat} {level : Int} (h : t.HeldBelow count level)
    (hchild : child ∈ t.children) : child.HeldBelow count (t.levelBelow level) :=
  (heldBelow_iff (tag_ne_held hchild)).1 h child hchild

theorem heldBelow_held {site : Site} {index count : Nat} {level : Int} :
    (held site index).HeldBelow count level ↔ level = 0 ∧ index < count := by
  simp [HeldBelow, heldRefs, fold]

/-- A term without held references is in bounds anywhere. -/
theorem heldBelow_of_nodes {t : Term} (h : ∀ node ∈ t.nodes, node.tag ≠ .held) (count : Nat)
    (level : Int) : t.HeldBelow count level := by
  induction t using induct_children generalizing level with
  | step t ih =>
    rw [heldBelow_iff (h t t.mem_nodes_self)]
    intro child hchild
    exact ih child hchild (forall_nodes_child h hchild) _

theorem HeldBelow.mono {t : Term} {count count' : Nat} {level : Int} (h : t.HeldBelow count level)
    (hle : count ≤ count') : t.HeldBelow count' level := by
  intro ref href
  rcases h ref href with ⟨hlevel, hlt⟩
  exact ⟨hlevel, by omega⟩

/-! ## Replacing and moving references -/

/-- A node is in bounds over new children that are. -/
theorem heldBelow_withChildren {t : Term} {ts : List Term} {count : Nat} {level : Int}
    (htag : t.tag ≠ .held) (hlen : ts.length = t.children.length)
    (h : ∀ child ∈ ts, child.HeldBelow count (t.levelBelow level)) :
    (t.withChildren ts).HeldBelow count level := by
  have htag' : (t.withChildren ts).tag ≠ .held := by
    rw [tag_withChildren]
    exact htag
  rw [heldBelow_iff htag', children_withChildren hlen, levelBelow_withChildren]
  exact h

theorem shiftHeld_eq {t : Term} (h : t.tag ≠ .held) (offset : Nat) :
    t.shiftHeld offset = t.withChildren (t.children.map (shiftHeld offset)) := by
  rw [shiftHeld, fold_eq]
  split
  · exact absurd rfl h
  · rfl

theorem shiftHeld_zero (t : Term) : t.shiftHeld 0 = t := by
  induction t using induct_children with
  | step t ih =>
    by_cases htag : t.tag = .held
    · cases t <;> cases htag
      rfl
    · rw [shiftHeld_eq htag, List.map_congr_left ih, List.map_id', withChildren_children]

/-- Moved references count values behind `offset` others. -/
theorem HeldBelow.shiftHeld {t : Term} {count : Nat} {level : Int} (h : t.HeldBelow count level)
    (offset : Nat) : (t.shiftHeld offset).HeldBelow (offset + count) level := by
  induction t using induct_children generalizing level with
  | step t ih =>
    by_cases htag : t.tag = .held
    · cases t <;> cases htag
      rw [heldBelow_held] at h
      rw [Term.shiftHeld, fold, heldBelow_held]
      exact ⟨h.1, by omega⟩
    · rw [heldBelow_iff htag] at h
      rw [shiftHeld_eq htag]
      refine heldBelow_withChildren htag (List.length_map _) ?_
      intro child' hchild'
      rcases List.mem_map.1 hchild' with ⟨child, hchild, rfl⟩
      exact ih child hchild (h child hchild)

end Term

/-! ## The invariant -/

/-- Held references stand at the level of the code that they are in and count values that are there. -/
def heldInvariant : CodeInvariant where
  holds count level t := t.HeldBelow count level
  stops stop := ∀ index, stop ≠ .failure (.missingHeld index)
  child h hchild := h.child hchild
  rebuilt {count count' depth t ts} ht _ hlen hts := by
    -- a held reference would stand at a level above 0
    refine Term.heldBelow_withChildren (fun htag => ?_) hlen hts
    cases t <;> cases htag
    rw [Term.heldBelow_held] at ht
    omega
  more h hle := h.mono hle
  spliced offset h := h.shiftHeld offset
  kept site count := Term.heldBelow_held.2 ⟨rfl, Nat.lt_succ_self count⟩
  outOfFuel index hstop := by cases hstop
  ordinary {failure} hfailure index hstop := by
    injection hstop with hstop
    subst hstop
    exact hfailure
  escape _ index hstop := by cases hstop
  missing h hle := by
    rw [Term.heldBelow_held] at h
    omega

/-- In code and functions that occur in a value, held references stand at the level of the code and
count values that are there. -/
abbrev Value.Intact (v : Value) : Prop := v.Meets heldInvariant

namespace Eval

/-- A stop that is not the lack of a held value, in an intact machine. -/
abbrev Sound : Stop → Machine → Prop := Stopped heldInvariant

variable {fuel : Nat} {t : Term}

theorem Reached.intact (ht : ∀ node ∈ t.nodes, node.tag ≠ .held) {n : Nat} {c : Call} {m : Machine}
    (h : Reached fuel t n c m) : c.Meets heldInvariant ∧ m.Meets heldInvariant :=
  h.meets (Term.heldBelow_of_nodes ht 0 0)

theorem Arises.intact (ht : ∀ node ∈ t.nodes, node.tag ≠ .held) {v : Value} (h : Arises fuel t v) :
    v.Intact :=
  h.meets (Term.heldBelow_of_nodes ht 0 0)

end Eval

/-- **Held references never dangle.** A program that contains none never lacks a held value, and in all
code that arises when it is evaluated, each held reference stands at the level of the code itself and
counts one of the values that the code holds. -/
theorem held_references_in_bounds {t : Term} (ht : ∀ node ∈ t.nodes, node.tag ≠ .held) (fuel : Nat) :
    (∀ index m, interpret fuel t {} ≠ .error (.failure (.missingHeld index)) m) ∧
    ∀ body held, Eval.Arises fuel t (.code body held) →
      ∀ ref ∈ body.heldRefs 0, ref.1 = 0 ∧ ref.2 < held.length := by
  constructor
  · intro index m herror
    have hstart : Eval.Reached fuel t fuel (.eval t {} []) {} := .start
    rcases hstart.intact ht with ⟨hc, hm⟩
    have hrun : Eval.Yields (interpret fuel t) {} (fun v _ => v.Intact) Eval.Sound :=
      (Eval.preserved fuel _ {} hc hm).bind fun _ _ h => Eval.yields_pure h.1
    exact (hrun.error herror).2 index rfl
  · intro body held harises
    cases harises.intact ht with
    | code hbody _ => exact hbody

/-- Code that keeps 7, bound to a name and spliced into a sum on both sides. -/
def splicedTwice : Term :=
  .seq ⟨0, {}⟩
    (.define ⟨1, {}⟩ "c" (.quote ⟨2, {}⟩ none false (.escape ⟨3, {}⟩ .persist (.literal ⟨4, {}⟩ (.int 7)))))
    (.quote ⟨5, {}⟩ none false (.binary ⟨6, {}⟩ .add
      (.escape ⟨7, {}⟩ .splice (.lookup ⟨8, {}⟩ "c")) (.escape ⟨9, {}⟩ .splice (.lookup ⟨10, {}⟩ "c"))))

/-- The second splice has its reference moved behind the first one's value. -/
theorem held_references_in_bounds_splicedTwice :
    (∀ node ∈ splicedTwice.nodes, node.tag ≠ .held) ∧
    ∃ body held, Eval.Arises 10 splicedTwice (.code body held) ∧
      body.heldRefs 0 = [(0, 0), (0, 1)] ∧ held.length = 2 ∧
      ∀ ref ∈ body.heldRefs 0, ref.1 = 0 ∧ ref.2 < held.length := by
  have hnodes : ∀ node ∈ splicedTwice.nodes, node.tag ≠ .held := by decide
  have harises : Eval.Arises 10 splicedTwice _ := .result .start (.eval rfl) (List.mem_singleton_self _)
  exact ⟨hnodes, _, _, harises, rfl, rfl, (held_references_in_bounds hnodes 10).2 _ _ harises⟩

end Multistage
