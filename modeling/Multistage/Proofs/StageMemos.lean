import Multistage.Proofs.Comparisons
import Multistage.Proofs.RememberedStages
import Multistage.Proofs.Reports

/-!
# The memos of the pipeline

The stages of the pipeline, one after the other, as stages that remember.

* `Stage.honest_elaborate` and so on: an outcome depends on no other parts of the source than it says. Where it
  has no diagnostic, the positions in the program do not matter.
* `Fresh.yields_split` and so on: no stage brings doubles that the program does not have, so that values that
  count as the same are equal.
* `Stage.recalls_fillHoles`, `Stage.recalls_evaluate` and so on: every stage recalls what it has come to. Two
  stages depend on the explicit program, and each of them is told which revisions the other one asks about.
* `Stage.tells_split`, `Stage.tells_evaluate` and so on: what is computed for the first time is told in full.
-/

namespace Multistage

/-! ## What the stages depend on -/

namespace Source

variable {s s' : Source}

theorem diagnose_congr (h : s'.program = s.program) (fault : Fault) : s'.diagnose fault = s.diagnose fault := by
  unfold diagnose spanOf
  rw [h]

theorem unusedSnippet_congr (h : s'.program = s.program) (f : Fragment) :
    s'.unusedSnippet f = s.unusedSnippet f := by
  unfold unusedSnippet spanOf
  rw [h]

section Conclude

variable {α : Type} {readsMode readsProgram : Bool} {x : Except Obstacle α} {o : Outcome α}

/-- A stage reads the mode exactly if its rule does, and the program at least if its rule does. -/
theorem conclude_reads (h : s.conclude readsMode readsProgram x = some o) :
    o.readsMode = readsMode ∧ (readsProgram = true → o.readsProgram = true) := by
  unfold conclude at h
  split at h
  · cases h
    exact ⟨rfl, id⟩
  · cases h
    exact ⟨rfl, fun _ => rfl⟩
  · cases h

theorem conclude_value {a : α} (h : s.conclude readsMode readsProgram x = some o) (ha : o.value = some a) :
    x = .ok a := by
  rcases conclude_cases h with ⟨b, rfl, hb, -⟩ | ⟨fault, -, hnone, -⟩
  · rw [Option.some.inj (hb.symm.trans ha)]
  · cases hnone.symm.trans ha

/-- Only the position of a fault depends on the source. -/
theorem conclude_congr (h : s.conclude readsMode readsProgram x = some o)
    (hprogram : o.readsProgram = true → s'.program = s.program) :
    s'.conclude readsMode readsProgram x = some o := by
  unfold conclude at h ⊢
  split at h
  · exact h
  · cases h
    rw [diagnose_congr (hprogram rfl)]
  · cases h

end Conclude

end Source

namespace Stage

/-- Judging a program depends on all of the source. -/
theorem honest_elaborate : elaborate.Honest := by
  intro source source' input o ho hmode hprogram
  rcases Source.conclude_reads ho with ⟨hreads, hreads'⟩
  have hprogram := hprogram (hreads' rfl)
  show source'.elaborate = some o
  rw [Source.elaborate, hmode hreads, hprogram]
  exact Source.conclude_congr ho fun _ => hprogram

/-- Making references explicit depends on the program, for its supply. -/
theorem honest_makeExplicit : makeExplicit.Honest := by
  intro source source' input o ho hmode hprogram
  cases input with
  | none => exact ho
  | some e =>
    have hprogram := hprogram ((Source.conclude_reads ho).2 rfl)
    show source'.makeExplicit (some e) = some o
    rw [Source.makeExplicit, hprogram]
    exact Source.conclude_congr ho fun _ => hprogram

/-- Judging the explicit program depends on the mode, and on the program if there is a fault. -/
theorem honest_judgeExplicit : judgeExplicit.Honest := by
  intro source source' input o ho hmode hprogram
  cases input with
  | none => exact ho
  | some program =>
    show source'.judgeExplicit (some program) = some o
    rw [Source.judgeExplicit, hmode (Source.conclude_reads ho).1]
    exact Source.conclude_congr ho hprogram

/-- Without a warning about a snippet, the positions in the program are of no interest. -/
theorem honest_split : split.Honest := by
  intro source source' input o ho hmode hprogram
  cases input with
  | none => exact ho
  | some e =>
    replace ho : source.split (some e) = some o := ho
    show source'.split (some e) = some o
    unfold Source.split at ho ⊢
    dsimp only at ho ⊢
    generalize Blueprint.ofTerm e.term e.table = units at ho ⊢
    cases units with
    | error fault => exact Source.conclude_congr ho hprogram
    | ok b =>
      dsimp only at ho ⊢
      generalize b.fragments.values.filter (fun f => f.snippet && f.fills.isNone) = unused at ho ⊢
      cases ho
      cases unused with
      | nil => rfl
      | cons f rest =>
        have hprogram := hprogram rfl
        rw [List.map_congr_left fun f _ => Source.unusedSnippet_congr hprogram f]

/-- The variants depend on the program only if there is a fault. -/
theorem honest_fillHoles : fillHoles.Honest := by
  intro source source' input o ho hmode hprogram
  cases input with
  | none => exact ho
  | some b => exact Source.conclude_congr ho hprogram

/-- Evaluating the explicit program depends on nothing else. -/
theorem honest_evaluate : evaluate.Honest := fun _ _ _ _ ho _ _ => ho

end Stage

/-! ## What the stages come to -/

/-- A source has doubles of a kind only. -/
def Source.Written (good : Float → Prop) (s : Source) : Prop := s.program.root.Written good

/-- A stage comes to values of a kind only. -/
def Fresh.Yields {α : Type} (good : Source → Prop) (fresh : Fresh α) (P : α → Prop) : Prop :=
  ∀ source o a, good source → fresh source = some o → o.1.value = some a → P a

theorem eq_of_sameOption {α : Type} {same : α → α → Bool} {x y : Option α}
    (hsame : ∀ a b, x = some a → y = some b → same a b = true → a = b) (h : sameOption same x y = true) : x = y := by
  unfold sameOption at h
  split at h
  · rfl
  · exact congrArg some (hsame _ _ rfl rfl h)
  · cases h

namespace Stage

variable {α β : Type} {s : Stage α β} {goodSource : Source → Prop} {before : Fresh α} {P : α → Prop} {Q : β → Prop}

/-- What a stage comes to follows from what it is given. -/
theorem yields (hbefore : before.Yields goodSource P)
    (h : ∀ source input o b, goodSource source → (∀ a, input = some a → P a) → s.compute source input = some o →
      o.value = some b → Q b) : Fresh.Yields goodSource (s.fresh before) Q := by
  intro source o b hsource ho hvalue
  rcases Option.bind_eq_some_iff.1 ho with ⟨given, hgiven, hcompute⟩
  rcases Option.map_eq_some_iff.1 hcompute with ⟨o', ho', rfl⟩
  exact h source given.1.value o' b hsource (fun a => hbefore source given a hsource hgiven) ho' hvalue

/-- A stage that is given nothing comes to nothing. -/
theorem yields_of_some (hnone : ∀ source, s.compute source none = some .skipped)
    (hbefore : before.Yields goodSource P)
    (h : ∀ source a o b, P a → s.compute source (some a) = some o → o.value = some b → Q b) :
    Fresh.Yields goodSource (s.fresh before) Q := by
  refine yields hbefore fun source input o b _ hinput ho hvalue => ?_
  cases input with
  | none =>
    cases (hnone source).symm.trans ho
    cases hvalue
  | some a => exact h source a o b (hinput a rfl) ho hvalue

/-- Values of a kind that count as the same only if they are equal. -/
theorem exact_of_yields {same : β → β → Bool} (hyields : Fresh.Yields goodSource (s.fresh before) Q)
    (hs : s.same = sameOption same) (hsame : ∀ a b, Q a → Q b → same a b = true → a = b) :
    s.Exact goodSource before := by
  intro source source' o o' hsource hsource' ho ho' h
  rw [hs] at h
  exact eq_of_sameOption (fun a b ha hb => hsame a b (hyields source o a hsource ho ha)
    (hyields source' o' b hsource' ho' hb)) h

/-- A stage that no other stage depends on need not compare its values. -/
theorem exact_of_never_same (h : ∀ x y, s.same x y = false) : s.Exact goodSource before := by
  intro _ _ o o' _ _ _ _ hsame
  rw [h] at hsame
  cases hsame

end Stage

/-- Elaborations that compare equal are equal. -/
theorem Elaboration.eq_of_same {good : Float → Prop} (hgood : Apart good) {a b : Elaboration}
    (ha : a.term.Written good) (hb : b.term.Written good) (h : a.same b = true) : a = b := by
  simp only [Elaboration.same, Bool.and_eq_true, decide_eq_true_eq] at h
  have hterm := Term.eq_of_same hgood ha hb h.1
  have htable := Table.eq_of_entries h.2
  cases a
  cases b
  cases hterm
  cases htable
  rfl

/-- Programs that compare equal are equal. -/
theorem Program.eq_of_same {good : Float → Prop} (hgood : Apart good) {a b : Program}
    (ha : a.root.Written good) (hb : b.root.Written good) (h : a.same b = true) : a = b := by
  simp only [Program.same, Bool.and_eq_true, decide_eq_true_eq] at h
  have hroot := Term.eq_of_same hgood ha hb h.1
  have hsupply := h.2
  cases a
  cases b
  cases hroot
  cases hsupply
  rfl

/-- Judging a term does not change it. -/
theorem Prelude.term_elaborate32 {p : Prelude} {t : Term} {e : Elaboration} (h : p.elaborate32 t = .ok e) :
    e.term = t := by
  rw [Prelude.elaborate32, elaborateWith_eq] at h
  rcases Except.bind_eq_ok.1 h with ⟨r, -, hr⟩
  cases hr
  rfl

/-- What the first stage is given from scratch: nothing. -/
def Fresh.start : Fresh Unit := fun _ => some (.skipped, [])

def Fresh.elaborate : Fresh Elaboration := Stage.elaborate.fresh .start

def Fresh.makeExplicit : Fresh Program := Stage.makeExplicit.fresh .elaborate

def Fresh.judgeExplicit : Fresh Elaboration := Stage.judgeExplicit.fresh .makeExplicit

def Fresh.split : Fresh Blueprint := Stage.split.fresh .judgeExplicit

def Fresh.fillHoles : Fresh VariantTable := Stage.fillHoles.fresh .split

def Fresh.evaluate : Fresh String := Stage.evaluate.fresh .makeExplicit

namespace Fresh

/-! ### Reports from scratch -/

theorem elaborate_eq (source : Source) : elaborate source = source.elaborate.map fun o => (o, o.diagnostics) := by
  show source.elaborate.map (fun o => (o, o.diagnostics ++ [])) = _
  simp only [List.append_nil]

theorem makeExplicit_eq (source : Source) : makeExplicit source = (elaborate source).bind fun b =>
    (source.makeExplicit b.1.value).map fun o => (o, o.diagnostics ++ b.2) := rfl

theorem judgeExplicit_eq (source : Source) : judgeExplicit source = (makeExplicit source).bind fun b =>
    (source.judgeExplicit b.1.value).map fun o => (o, o.diagnostics ++ b.2) := rfl

theorem split_eq (source : Source) : split source = (judgeExplicit source).bind fun b =>
    (source.split b.1.value).map fun o => (o, o.diagnostics ++ b.2) := rfl

theorem fillHoles_eq (source : Source) : fillHoles source = (split source).bind fun b =>
    (source.fillHoles b.1.value).map fun o => (o, o.diagnostics ++ b.2) := rfl

theorem evaluate_eq (source : Source) : evaluate source = (makeExplicit source).bind fun b =>
    (source.evaluate b.1.value).map fun o => (o, o.diagnostics ++ b.2) := rfl

theorem check_eq (source : Source) :
    source.check = (elaborate source).map fun o => ⟨Source.typeText o.1.value, o.1.diagnostics⟩ := by
  simp [Source.check, elaborate_eq, Option.map_eq_bind, Option.bind_assoc]

theorem run_eq (source : Source) :
    source.run = (evaluate source).map fun o => ⟨o.1.value, o.2, o.1.printed⟩ := by
  simp [Source.run, evaluate_eq, makeExplicit_eq, elaborate_eq, Option.map_eq_bind, Option.bind_assoc]

theorem compile_eq (source : Source) : source.compile = (split source).bind fun b =>
    (source.fillHoles b.1.value).map fun o => ⟨b.1.value, o.value, o.diagnostics ++ b.2⟩ := by
  simp [Source.compile, split_eq, judgeExplicit_eq, makeExplicit_eq, elaborate_eq, Option.map_eq_bind,
    Function.comp_def, Option.bind_assoc]

theorem compile_eq_none {source : Source} (h : fillHoles source = none) : source.compile = none := by
  rw [compile_eq]
  rw [fillHoles_eq] at h
  cases hsplit : split source with
  | none => rfl
  | some b =>
    rw [hsplit] at h
    exact Option.map_eq_none_iff.2 (Option.map_eq_none_iff.1 h)

/-! ### Doubles -/

variable {good : Float → Prop}

theorem yields_elaborate : Yields (Source.Written good) elaborate fun e => e.term.Written good := by
  refine Stage.yields (P := fun _ => True) (fun _ _ _ _ _ _ => trivial) ?_
  intro source input o e hsource _ ho hvalue
  rw [Prelude.term_elaborate32 (Source.conclude_value ho hvalue)]
  exact hsource

theorem yields_makeExplicit : Yields (Source.Written good) makeExplicit fun q => q.root.Written good := by
  refine Stage.yields_of_some (fun _ => rfl) yields_elaborate ?_
  intro source e o q he ho hvalue
  exact he.explicitAt (run_of_makeExplicit (Source.conclude_value ho hvalue))

theorem yields_judgeExplicit : Yields (Source.Written good) judgeExplicit fun e => e.term.Written good := by
  refine Stage.yields_of_some (fun _ => rfl) yields_makeExplicit ?_
  intro source q o e hq ho hvalue
  rw [Prelude.term_elaborate32 (Source.conclude_value ho hvalue)]
  exact hq

/-- Units have no other doubles than the program. -/
theorem yields_split : Yields (Source.Written good) split (Blueprint.Written good) := by
  refine Stage.yields_of_some (fun _ => rfl) yields_judgeExplicit ?_
  intro source e o b he ho hvalue
  replace ho : source.split (some e) = some o := ho
  unfold Source.split at ho
  dsimp only at ho
  split at ho
  · next b' hb' =>
    cases ho
    cases hvalue
    exact Blueprint.written_ofTerm he hb'
  · cases ho
    cases hvalue

end Fresh

/-! ## What the stages remember -/

namespace Condition

/-- Nothing is remembered before the first stage. -/
def start : Condition := fun _ _ _ _ => True

def elaborate : Condition := Stage.elaborate.Holds .start start

def makeExplicit : Condition := Stage.makeExplicit.Holds .elaborate elaborate

variable (others : List Nat)

def judgeExplicit : Condition := Stage.judgeExplicit.Holds .makeExplicit (makeExplicit.heard others)

def split : Condition := Stage.split.Holds .judgeExplicit (judgeExplicit others)

def fillHoles : Condition := Stage.fillHoles.Holds .split (split others)

def evaluate : Condition := Stage.evaluate.Holds .makeExplicit (makeExplicit.heard others)

end Condition

namespace Cell

def forgetElaborated (c : Cell) : Cell := { c with elaborated := none }

def forgetExplicit (c : Cell) : Cell := { c.forgetElaborated with explicit := none }

def forgetJudged (c : Cell) : Cell := { c.forgetExplicit with judged := none }

def forgetBlueprint (c : Cell) : Cell := { c.forgetJudged with blueprint := none }

def forgetVariants (c : Cell) : Cell := { c.forgetBlueprint with variants := none }

def forgetResult (c : Cell) : Cell := { c.forgetExplicit with result := none }

end Cell

namespace Kept

variable {H : History} {now : Nat} {c c' : Cell} {others : List Nat}

theorem start : Kept .start H now c c' := fun _ _ => trivial

theorem elaborate (h : c'.elaborated = c.elaborated) : Kept .elaborate H now c c' := .kept start h

theorem makeExplicit (h : c'.elaborated = c.elaborated) (h' : c'.explicit = c.explicit) :
    Kept .makeExplicit H now c c' := .kept (elaborate h) h'

theorem evaluate (h : Kept .makeExplicit H now c c') (hresult : c'.result = c.result) :
    Kept (.evaluate others) H now c c' := .kept h.heard hresult

theorem fillHoles (h : Kept .makeExplicit H now c c') (hjudged : c'.judged = c.judged)
    (hblueprint : c'.blueprint = c.blueprint) (hvariants : c'.variants = c.variants) :
    Kept (.fillHoles others) H now c c' := .kept (.kept (.kept h.heard hjudged) hblueprint) hvariants

end Kept

namespace Stage

/-! ### Places of the memos -/

theorem placed_elaborate : elaborate.Placed .start id Cell.forgetElaborated :=
  ⟨fun _ => rfl, fun _ => rfl, fun _ _ => rfl, fun _ => rfl, fun _ => rfl, fun _ _ => rfl,
    fun _ _ _ _ => .start, fun _ _ => rfl, fun _ => ⟨rfl, rfl, rfl⟩⟩

theorem placed_makeExplicit : makeExplicit.Placed .elaborate Cell.forgetElaborated Cell.forgetExplicit :=
  ⟨fun _ => rfl, fun _ => rfl, fun _ _ => rfl, fun _ => rfl, fun _ => rfl, fun _ _ => rfl,
    fun _ _ _ _ => .elaborate rfl, fun _ _ => rfl, fun _ => ⟨rfl, rfl, rfl⟩⟩

variable (others : List Nat)

theorem placed_judgeExplicit : judgeExplicit.Placed (Condition.makeExplicit.heard others) Cell.forgetExplicit
    Cell.forgetJudged :=
  ⟨fun _ => rfl, fun _ => rfl, fun _ _ => rfl, fun _ => rfl, fun _ => rfl, fun _ _ => rfl,
    fun _ _ _ _ => .heard (.makeExplicit rfl rfl), fun _ _ => rfl, fun _ => ⟨rfl, rfl, rfl⟩⟩

theorem placed_split : split.Placed (.judgeExplicit others) Cell.forgetJudged Cell.forgetBlueprint :=
  ⟨fun _ => rfl, fun _ => rfl, fun _ _ => rfl, fun _ => rfl, fun _ => rfl, fun _ _ => rfl,
    fun _ _ _ _ => .kept (.heard (.makeExplicit rfl rfl)) rfl, fun _ _ => rfl, fun _ => ⟨rfl, rfl, rfl⟩⟩

theorem placed_fillHoles : fillHoles.Placed (.split others) Cell.forgetBlueprint Cell.forgetVariants :=
  ⟨fun _ => rfl, fun _ => rfl, fun _ _ => rfl, fun _ => rfl, fun _ => rfl, fun _ _ => rfl,
    fun _ _ _ _ => .kept (.kept (.heard (.makeExplicit rfl rfl)) rfl) rfl, fun _ _ => rfl,
    fun _ => ⟨rfl, rfl, rfl⟩⟩

theorem placed_evaluate : evaluate.Placed (Condition.makeExplicit.heard others) Cell.forgetExplicit
    Cell.forgetResult :=
  ⟨fun _ => rfl, fun _ => rfl, fun _ _ => rfl, fun _ => rfl, fun _ => rfl, fun _ _ => rfl,
    fun _ _ _ _ => .heard (.makeExplicit rfl rfl), fun _ _ => rfl, fun _ => ⟨rfl, rfl, rfl⟩⟩

/-! ### First computations -/

theorem tells_elaborate : elaborate.link.Tells .elaborate Cell.forgetElaborated :=
  tells Link.tells_start placed_elaborate

theorem tells_makeExplicit : makeExplicit.link.Tells .makeExplicit Cell.forgetExplicit :=
  tells tells_elaborate placed_makeExplicit

theorem tells_judgeExplicit : judgeExplicit.link.Tells .judgeExplicit Cell.forgetJudged :=
  tells tells_makeExplicit (placed_judgeExplicit [])

theorem tells_split : split.link.Tells .split Cell.forgetBlueprint := tells tells_judgeExplicit (placed_split [])

theorem tells_fillHoles : fillHoles.link.Tells .fillHoles Cell.forgetVariants := tells tells_split (placed_fillHoles [])

theorem tells_evaluate : evaluate.link.Tells .evaluate Cell.forgetResult :=
  tells tells_makeExplicit (placed_evaluate [])

/-! ### Recalled outcomes -/

variable {good : Float → Prop} (hgood : Apart good)
include hgood

theorem recalls_elaborate :
    elaborate.link.Recalls (Source.Written good) .elaborate .elaborate Cell.forgetElaborated :=
  recalls (Link.recalls_start _) placed_elaborate honest_elaborate
    (exact_of_yields Fresh.yields_elaborate rfl fun _ _ ha hb => Elaboration.eq_of_same hgood ha hb)

theorem recalls_makeExplicit :
    makeExplicit.link.Recalls (Source.Written good) .makeExplicit .makeExplicit Cell.forgetExplicit :=
  recalls (recalls_elaborate hgood) placed_makeExplicit honest_makeExplicit
    (exact_of_yields Fresh.yields_makeExplicit rfl fun _ _ ha hb => Program.eq_of_same hgood ha hb)

theorem recalls_judgeExplicit : judgeExplicit.link.Recalls (Source.Written good) .judgeExplicit
    (.judgeExplicit others) Cell.forgetJudged :=
  recalls ((recalls_makeExplicit hgood).heard others) (placed_judgeExplicit others) honest_judgeExplicit
    (exact_of_yields Fresh.yields_judgeExplicit rfl fun _ _ ha hb => Elaboration.eq_of_same hgood ha hb)

theorem recalls_split : split.link.Recalls (Source.Written good) .split (.split others) Cell.forgetBlueprint :=
  recalls (recalls_judgeExplicit others hgood) (placed_split others) honest_split
    (exact_of_yields Fresh.yields_split rfl fun _ _ ha hb => Blueprint.eq_of_same hgood ha hb)

theorem recalls_fillHoles :
    fillHoles.link.Recalls (Source.Written good) .fillHoles (.fillHoles others) Cell.forgetVariants :=
  recalls (recalls_split others hgood) (placed_fillHoles others) honest_fillHoles
    (exact_of_never_same fun _ _ => rfl)

theorem recalls_evaluate :
    evaluate.link.Recalls (Source.Written good) .evaluate (.evaluate others) Cell.forgetResult :=
  recalls ((recalls_makeExplicit hgood).heard others) (placed_evaluate others) honest_evaluate
    (exact_of_never_same fun _ _ => rfl)

end Stage

end Multistage
