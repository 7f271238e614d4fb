import Multistage.Pipeline.Report

/-!
# Reports stop at the first error

Each stage of the pipeline works on the result of the one before it, and each speaks for itself. A stage
without a result to work on is silent, and one that fails says so once, so along a chain of stages there is
a result or one error (`Settled`). `Outcome.Follows` is what a stage does to have this kept
(`Settled.follow`). Warnings come from splitting only, which may be followed by a stage that fails.

Main statement: `reports_fail_fast`.
-/

namespace Multistage

/-- The errors among diagnostics. -/
def errors (ds : List Diagnostic) : List Diagnostic := ds.filter (·.severity = .error)

/-- The warnings among diagnostics. -/
def warnings (ds : List Diagnostic) : List Diagnostic := ds.filter (·.severity = .warning)

variable {α β : Type} {ds ds' : List Diagnostic} {d : Diagnostic}

theorem errors_append : errors (ds ++ ds') = errors ds ++ errors ds' := List.filter_append _ _

theorem warnings_append : warnings (ds ++ ds') = warnings ds ++ warnings ds' := List.filter_append _ _

theorem errors_singleton (h : d.severity = .error) : errors [d] = [d] := by
  simp [errors, h]

/-- Where there are no warnings there are errors only. -/
theorem errors_eq_self (h : warnings ds = []) : errors ds = ds := by
  rw [errors, List.filter_eq_self]
  intro d hd
  have hne := List.filter_eq_nil_iff.1 h d hd
  cases hseverity : d.severity with
  | error => rfl
  | warning => exact absurd (decide_eq_true hseverity) hne

/-- Stages have come to a result and no error, or to one error and no result. -/
inductive Settled : Option α → List Diagnostic → Prop
  | result {a : α} {ds : List Diagnostic} : errors ds = [] → Settled (some a) ds
  | fault {ds : List Diagnostic} {d : Diagnostic} : errors ds = [d] → Settled none ds

theorem Settled.length_errors_le {a? : Option α} (h : Settled a? ds) : (errors ds).length ≤ 1 := by
  cases h with
  | result hnone => simp [hnone]
  | fault hone => simp [hone]

theorem Settled.eq_none_iff {a? : Option α} (h : Settled a? ds) : a? = none ↔ errors ds ≠ [] := by
  cases h with
  | result hnone => simp [hnone]
  | fault hone => simp [hone]

/-- What a stage makes of the result before it: it is silent without one, and with one it has a result and
no error, or says once why it has none. -/
inductive Outcome.Follows : Option α → Outcome β → Prop
  | skipped : Follows none .skipped
  | done {a : α} {b : β} {o : Outcome β} : o.value = some b → errors o.diagnostics = [] → Follows (some a) o
  | failed {a : α} {o : Outcome β} {d : Diagnostic} : o.value = none → o.diagnostics = [d] →
      d.severity = .error → Follows (some a) o

/-- One more stage. -/
theorem Settled.follow {a? : Option α} {o : Outcome β} (h : Settled a? ds) (ho : o.Follows a?) :
    Settled o.value (o.diagnostics ++ ds) := by
  cases ho with
  | skipped =>
    cases h with
    | fault hone => exact .fault hone
  | done hvalue hnone =>
    cases h with
    | result hbefore =>
      rw [hvalue]
      refine .result ?_
      rw [errors_append, hnone, hbefore]
      rfl
  | @failed _ _ d hvalue hone hseverity =>
    cases h with
    | result hbefore =>
      have hfault : errors ([d] ++ ds) = [d] := by
        rw [errors_append, errors_singleton hseverity, hbefore]
        rfl
      rw [hvalue, hone]
      exact .fault hfault

namespace Source

variable {s : Source}

/-! ## The stages -/

section Conclude

variable {readsMode readsProgram : Bool} {x : Except Obstacle β} {o : Outcome β}

/-- A pass comes to a result and says nothing, or to nothing and says why. -/
theorem conclude_cases (h : s.conclude readsMode readsProgram x = some o) :
    (∃ b, x = .ok b ∧ o.value = some b ∧ o.diagnostics = []) ∨
      ∃ fault, x = .error (.fault fault) ∧ o.value = none ∧ o.diagnostics = [s.diagnose fault] := by
  unfold conclude at h
  split at h
  · cases h
    exact .inl ⟨_, rfl, rfl, rfl⟩
  · cases h
    exact .inr ⟨_, rfl, rfl, rfl⟩
  · cases h

theorem conclude_eq_none_iff : s.conclude readsMode readsProgram x = none ↔ x = .error .exhausted := by
  unfold conclude
  split <;> simp

/-- A stage that is one pass follows what it was given. -/
theorem follows_conclude (a : α) (h : s.conclude readsMode readsProgram x = some o) :
    o.Follows (some a) ∧ warnings o.diagnostics = [] := by
  rcases conclude_cases h with ⟨b, -, hvalue, hdiagnostics⟩ | ⟨fault, -, hvalue, hdiagnostics⟩
  · rw [hdiagnostics]
    exact ⟨.done hvalue (by rw [hdiagnostics]; rfl), rfl⟩
  · rw [hdiagnostics]
    exact ⟨.failed hvalue hdiagnostics rfl, rfl⟩

end Conclude

theorem settled_elaborate {o : Outcome Elaboration} (h : s.elaborate = some o) :
    Settled o.value o.diagnostics ∧ warnings o.diagnostics = [] := by
  rcases follows_conclude () h with ⟨hfollows, hwarnings⟩
  have hstart : Settled (some ()) [] := .result rfl
  exact ⟨by simpa using hstart.follow hfollows, hwarnings⟩

theorem follows_makeExplicit {e? : Option Elaboration} {o : Outcome Program} (h : s.makeExplicit e? = some o) :
    o.Follows e? ∧ warnings o.diagnostics = [] := by
  cases e? with
  | none =>
    cases h
    exact ⟨.skipped, rfl⟩
  | some e => exact follows_conclude e h

theorem follows_judgeExplicit {program? : Option Program} {o : Outcome Elaboration}
    (h : s.judgeExplicit program? = some o) : o.Follows program? ∧ warnings o.diagnostics = [] := by
  cases program? with
  | none =>
    cases h
    exact ⟨.skipped, rfl⟩
  | some program => exact follows_conclude program h

variable (s) in
/-- The warnings for a program that is split into units, none for one that is not. -/
def unusedSnippets (b? : Option Blueprint) : List Diagnostic :=
  match b? with
  | none => []
  | some b => (b.fragments.values.filter fun f => f.snippet && f.fills.isNone).map s.unusedSnippet

/-- Splitting gives units exactly if there is an elaborated program, or reports why not. -/
theorem follows_split {e? : Option Elaboration} {o : Outcome Blueprint} (h : s.split e? = some o) :
    o.Follows e? ∧ warnings o.diagnostics = s.unusedSnippets o.value := by
  cases e? with
  | none =>
    cases h
    exact ⟨.skipped, rfl⟩
  | some e =>
    rw [split] at h
    split at h
    · cases h
      -- whatever fragment it is about, such a diagnostic is a warning
      have hsevere : ∀ fs : List Fragment, ∀ d ∈ fs.map s.unusedSnippet, d.severity = .warning := by
        intro fs d hd
        rcases List.mem_map.1 hd with ⟨f, -, rfl⟩
        rfl
      refine ⟨.done rfl (List.filter_eq_nil_iff.2 ?_), List.filter_eq_self.2 ?_⟩
      · intro d hd
        simp [hsevere _ d hd]
      · intro d hd
        simp [hsevere _ d hd]
    · cases h
      exact ⟨.failed rfl rfl rfl, rfl⟩

theorem follows_fillHoles {b? : Option Blueprint} {o : Outcome VariantTable} (h : s.fillHoles b? = some o) :
    o.Follows b? ∧ warnings o.diagnostics = [] := by
  cases b? with
  | none =>
    cases h
    exact ⟨.skipped, rfl⟩
  | some b => exact follows_conclude b h

/-- Evaluation gives a value exactly if there is a program to run, or reports why not, and warns of nothing. -/
theorem follows_evaluate {program? : Option Program} {o : Outcome String} (h : s.evaluate program? = some o) :
    o.Follows program? ∧ warnings o.diagnostics = [] := by
  cases program? with
  | none =>
    cases h
    exact ⟨.skipped, rfl⟩
  | some program =>
    rw [evaluate] at h
    split at h
    · cases h
      exact ⟨.done rfl rfl, rfl⟩
    · cases h
      exact ⟨.failed rfl rfl rfl, rfl⟩
    · cases h

/-! ## The reports -/

theorem check_eq_some {r : CheckReport} (h : s.check = some r) :
    ∃ o, s.elaborate = some o ∧ r = ⟨typeText o.value, o.diagnostics⟩ := by
  rcases Option.bind_eq_some_iff.1 h with ⟨o, ho, hr⟩
  cases hr
  exact ⟨o, ho, rfl⟩

/-- A compilation gives variants or a fault, and warns of snippets that are not used. -/
theorem settled_compile {r : CompileReport} (h : s.compile = some r) :
    Settled r.variants r.diagnostics ∧ warnings r.diagnostics = s.unusedSnippets r.blueprint := by
  rcases Option.bind_eq_some_iff.1 h with ⟨elaborated, helaborated, h⟩
  rcases Option.bind_eq_some_iff.1 h with ⟨explicit, hexplicit, h⟩
  rcases Option.bind_eq_some_iff.1 h with ⟨judged, hjudged, h⟩
  rcases Option.bind_eq_some_iff.1 h with ⟨blueprint, hblueprint, h⟩
  rcases Option.bind_eq_some_iff.1 h with ⟨variants, hvariants, h⟩
  cases h
  have helaborated := settled_elaborate helaborated
  have hexplicit := follows_makeExplicit hexplicit
  have hjudged := follows_judgeExplicit hjudged
  have hsplit := follows_split hblueprint
  have hfilled := follows_fillHoles hvariants
  constructor
  · simpa using (((helaborated.1.follow hexplicit.1).follow hjudged.1).follow hsplit.1).follow hfilled.1
  · simp [warnings_append, hexplicit.2, hjudged.2, hsplit.2, hfilled.2, helaborated.2]

/-- A run gives a value or a fault, and warns of nothing. -/
theorem settled_run {r : RunReport} (h : s.run = some r) :
    Settled r.value r.diagnostics ∧ warnings r.diagnostics = [] := by
  rcases Option.bind_eq_some_iff.1 h with ⟨elaborated, helaborated, h⟩
  rcases Option.bind_eq_some_iff.1 h with ⟨explicit, hexplicit, h⟩
  rcases Option.bind_eq_some_iff.1 h with ⟨result, hresult, h⟩
  cases h
  have helaborated := settled_elaborate helaborated
  have hexplicit := follows_makeExplicit hexplicit
  have hresult := follows_evaluate hresult
  constructor
  · simpa using (helaborated.1.follow hexplicit.1).follow hresult.1
  · simp [warnings_append, hexplicit.2, hresult.2, helaborated.2]

/-- An error of the first stage is all that any report has. -/
theorem of_errors_check {r : CheckReport} {d : Diagnostic} (hr : s.check = some r) (h : d ∈ errors r.diagnostics) :
    r.diagnostics = [d] ∧ s.compile = some ⟨none, none, [d]⟩ ∧ s.run = some ⟨none, [d], ""⟩ := by
  rcases check_eq_some hr with ⟨⟨value, diagnostics, _, _, _⟩, ho, rfl⟩
  rcases conclude_cases ho with ⟨e, -, -, hnone⟩ | ⟨fault, -, hvalue, hone⟩
  · obtain rfl : diagnostics = [] := hnone
    cases h
  · obtain rfl : diagnostics = [s.diagnose fault] := hone
    obtain rfl : value = none := hvalue
    -- the stages that follow have nothing to work on
    rw [errors_singleton rfl, List.mem_singleton] at h
    subst h
    refine ⟨rfl, ?_, ?_⟩
    · rw [compile, ho]
      rfl
    · rw [run, ho]
      rfl

/-! ## Sources without a report -/

variable (s)

/-- A level or a stage of the program outgrows its word. -/
def Oversized : Prop := (Prelude.ofMode s.mode).elaborate32 s.program.root = .error .exhausted

/-- The supply of identities runs dry when references across stages are made explicit. -/
def Exhausted : Prop :=
  ∃ e, (Prelude.ofMode s.mode).elaborate32 s.program.root = .ok e ∧
    Program.makeExplicit ⟨e.term, s.program.supply⟩ e.table = .error .exhausted

/-- The source elaborates, and `q` is its program with explicit references. -/
def LeadsTo (q : Program) : Prop :=
  ∃ e, (Prelude.ofMode s.mode).elaborate32 s.program.root = .ok e ∧
    Program.makeExplicit ⟨e.term, s.program.supply⟩ e.table = .ok q

/-- A level or a stage outgrows its word in the program with explicit references. -/
def OversizedInside : Prop :=
  ∃ q, s.LeadsTo q ∧ (Prelude.ofMode s.mode).elaborate32 q.root = .error .exhausted

/-- Evaluation takes more than ample fuel. -/
def Endless : Prop := ∃ q m, s.LeadsTo q ∧ (interpret ampleFuel q.root).run {} = .error .outOfFuel m

theorem check_eq_none_iff : s.check = none ↔ s.Oversized := by
  have hcheck : s.check = s.elaborate.map fun o => ⟨typeText o.value, o.diagnostics⟩ := by
    rw [check]
    cases s.elaborate <;> rfl
  rw [hcheck, Option.map_eq_none_iff]
  exact conclude_eq_none_iff

/-- If the first two stages have an outcome, it is a stage after them that decides whether there is a report. -/
theorem explicit_eq_none_iff {γ : Type} {f : Outcome Elaboration → Outcome Program → Option γ}
    {stage : Option Program → Option (Outcome β)} (hskipped : stage none ≠ none)
    (hf : ∀ elaborated explicit, f elaborated explicit = none ↔ stage explicit.value = none) :
    (do
      let elaborated ← s.elaborate
      let explicit ← s.makeExplicit elaborated.value
      f elaborated explicit) = none ↔ s.Oversized ∨ s.Exhausted ∨ ∃ q, s.LeadsTo q ∧ stage (some q) = none := by
  unfold Oversized Exhausted LeadsTo elaborate
  rcases (Prelude.ofMode s.mode).elaborate32 s.program.root with (fault | _) | e
  · simpa [conclude, makeExplicit, Outcome.skipped, hf] using hskipped
  · simp [conclude]
  · rcases hexplicit : Program.makeExplicit ⟨e.term, s.program.supply⟩ e.table with (fault | _) | q
    · simpa [conclude, makeExplicit, hexplicit, hf] using hskipped
    · simp [conclude, makeExplicit, hexplicit]
    · simp [conclude, makeExplicit, hexplicit, hf]

theorem split_ne_none (e? : Option Elaboration) : s.split e? ≠ none := by
  cases e? with
  | none => exact Option.some_ne_none _
  | some e =>
    rw [split]
    split <;> exact Option.some_ne_none _

/-- Filling holes always ends. -/
theorem fillHoles_ne_none (b? : Option Blueprint) : s.fillHoles b? ≠ none := by
  cases b? with
  | none => exact Option.some_ne_none _
  | some b =>
    rw [fillHoles, ne_eq, conclude_eq_none_iff]
    cases variantTable b.fragments with
    | ok table =>
      intro h
      cases h
    | error fault =>
      intro h
      cases h

/-- There is no report on a compilation exactly if words are too small or identities run out. -/
theorem compile_eq_none_iff : s.compile = none ↔ s.Oversized ∨ s.Exhausted ∨ s.OversizedInside := by
  have hjudged : ∀ q, s.judgeExplicit (some q) = none ↔
      (Prelude.ofMode s.mode).elaborate32 q.root = .error .exhausted := fun q => conclude_eq_none_iff
  simp only [OversizedInside, ← hjudged]
  refine s.explicit_eq_none_iff (Option.some_ne_none _) fun elaborated explicit => ?_
  -- after the second judging every stage has an outcome
  cases s.judgeExplicit explicit.value with
  | none => simp
  | some judged =>
    rcases Option.ne_none_iff_exists'.1 (s.split_ne_none judged.value) with ⟨blueprint, hblueprint⟩
    rcases Option.ne_none_iff_exists'.1 (s.fillHoles_ne_none blueprint.value) with ⟨variants, hvariants⟩
    simp [hblueprint, hvariants]

/-- There is no report on a run exactly if words are too small, identities run out, or fuel does. -/
theorem run_eq_none_iff : s.run = none ↔ s.Oversized ∨ s.Exhausted ∨ s.Endless := by
  have hevaluate : ∀ q, s.evaluate (some q) = none ↔
      ∃ m, (interpret ampleFuel q.root).run {} = .error .outOfFuel m := by
    intro q
    rw [evaluate]
    split <;> simp_all
  simp only [Endless, exists_and_left, ← hevaluate]
  refine s.explicit_eq_none_iff (Option.some_ne_none _) fun elaborated explicit => ?_
  cases s.evaluate explicit.value <;> simp

end Source

/-- **Reports stop at the first error.** A source is compiled to its variants or the report has one error, and
the warnings are those about the snippets that fill no hole, one each, if the program was split into units at
all. It is evaluated to a value if and only if nothing is reported. Where checking reports an error, this is
all that compiling and evaluating report, and they come to nothing. There is a report unless a number outgrows
its word or evaluation does not end. -/
theorem reports_fail_fast (s : Source) :
    (∀ r, s.compile = some r → (errors r.diagnostics).length ≤ 1 ∧
      (r.variants = none ↔ ∃ d ∈ r.diagnostics, d.severity = .error) ∧
      warnings r.diagnostics = s.unusedSnippets r.blueprint) ∧
    (∀ r, s.run = some r → (r.value.isSome ↔ r.diagnostics = [])) ∧
    (∀ r, s.check = some r → ∀ d ∈ r.diagnostics, d.severity = .error → r.diagnostics = [d] ∧
      s.compile = some ⟨none, none, [d]⟩ ∧ s.run = some ⟨none, [d], ""⟩) ∧
    (s.check = none ↔ s.Oversized) ∧
    (s.compile = none ↔ s.Oversized ∨ s.Exhausted ∨ s.OversizedInside) ∧
    (s.run = none ↔ s.Oversized ∨ s.Exhausted ∨ s.Endless) := by
  refine ⟨?_, ?_, ?_, s.check_eq_none_iff, s.compile_eq_none_iff, s.run_eq_none_iff⟩
  · intro r hr
    rcases Source.settled_compile hr with ⟨hsettled, hwarnings⟩
    refine ⟨hsettled.length_errors_le, ?_, hwarnings⟩
    rw [hsettled.eq_none_iff]
    simp [errors]
  · intro r hr
    rcases Source.settled_run hr with ⟨hsettled, hwarnings⟩
    rw [← Option.ne_none_iff_isSome, ne_eq, hsettled.eq_none_iff, errors_eq_self hwarnings, Decidable.not_not]
  · intro r hr d hd hseverity
    exact Source.of_errors_check hr (List.mem_filter.2 ⟨hd, decide_eq_true hseverity⟩)

/-- A snippet that fills no hole, and one that is filled with itself. -/
def unusedAndLooped : Source where
  program := ⟨.seq ⟨0, {}⟩
    (.quote ⟨1, {}⟩ none true (.literal ⟨2, {}⟩ (.int 3)))
    (.seq ⟨3, {}⟩ (.define ⟨4, {}⟩ "s" (.quote ⟨5, {}⟩ none true (.literal ⟨6, {}⟩ (.int 1))))
      (.assign ⟨7, {}⟩ "s" (.quote ⟨8, {}⟩ none true (.escape ⟨9, {}⟩ .snippet (.lookup ⟨10, {}⟩ "s"))))), ⟨11⟩⟩

/-- The warning is reported next to the error of the stage after it. -/
theorem reports_fail_fast_unusedAndLooped : ∃ r, unusedAndLooped.compile = some r ∧
    r.blueprint.isSome ∧ r.variants = none ∧ (errors r.diagnostics).length = 1 ∧
    (warnings r.diagnostics).length = 1 ∧ ∃ d ∈ r.diagnostics, d.severity = .error := by
  have hcompile : unusedAndLooped.compile = some ⟨some _, none, [_, _]⟩ := rfl
  have hreport := (reports_fail_fast unusedAndLooped).1 _ hcompile
  exact ⟨_, hcompile, rfl, rfl, rfl, rfl, hreport.2.1.1 rfl⟩

end Multistage
