import Multistage.Proofs.SourceCache
import Multistage.Proofs.StageMemos

/-!
# Reports of a session

Whatever has been remembered, a session reports on a source what the source comes to from scratch.

* `Session.check` gives the very report of `Source.check`.
* `Session.run` and `Session.compile` give the same value, the same units and the same variants as `Source.run`
  and `Source.compile`. Diagnostics may be missing, since a stage that is merely confirmed does not mention its
  own, but there are no others and they come in the same order. A program that is not evaluated again prints
  nothing.
* The first report on a source is in no way different from that of `Source.run` and `Source.compile`.

This is so after any sequence of commands, edits of sources and of files among them, for programs whose doubles
are told apart by comparing them as numbers (`Apart`). Without it a zero may be edited into the other zero, and
the stages after the judgements stay what they were. Main statements: `Session.reports_current`,
`Session.first_run` and `Session.first_compile`.
-/

namespace Multistage

/-! ## Two branches

The explicit program is evaluated, and it is compiled. Either of the two brings it up to date, and must leave it
such that the other one can still rely on it. -/

namespace Condition

variable {good : Float → Prop} {H : History} {asked others : List Nat} {now : Nat} {c : Cell} (hgood : Apart good)
include hgood

/-- What a branch relies on by itself, with what the other one relies on. -/
theorem heard_of_alone (h : (makeExplicit.heard []) H asked now c) (hothers : makeExplicit H others now c) :
    (makeExplicit.heard others) H asked now c := by
  have hjoin := (Stage.recalls_makeExplicit hgood).join h hothers
  rwa [List.append_nil] at hjoin

theorem of_heard (h : (makeExplicit.heard others) H asked now c) : makeExplicit H others now c :=
  (Stage.recalls_makeExplicit hgood).mono h (List.subset_append_right _ _)

end Condition

namespace Stage

variable {good : Float → Prop} {H : History} {asked : List Nat} {now : Nat} {c c' : Cell}

/-- Evaluating a program leaves what other stages rely on. -/
theorem kept_evaluate (hgood : Apart good) {m : Memo String} (hdated : c.Dated (Source.Written good) H now)
    (h : Condition.evaluate [] H asked now c) (hrefresh : evaluate.refresh now c = some (m, c')) :
    Kept .makeExplicit H now c c' := by
  intro others hothers
  have h' : Condition.evaluate others H asked now c := h.map fun _ h => Condition.heard_of_alone hgood h hothers
  exact Condition.of_heard hgood ((recalls_evaluate others hgood).kept hdated hrefresh asked h').earlier

/-- Compiling a program leaves what other stages rely on. -/
theorem kept_fillHoles (hgood : Apart good) {m : Memo VariantTable} (hdated : c.Dated (Source.Written good) H now)
    (h : Condition.fillHoles [] H asked now c) (hrefresh : fillHoles.refresh now c = some (m, c')) :
    Kept .makeExplicit H now c c' := by
  intro others hothers
  have h' : Condition.fillHoles others H asked now c := h.map fun _ h => h.map fun _ h => h.map fun _ h =>
    Condition.heard_of_alone hgood h hothers
  have hkept := (recalls_fillHoles others hgood).kept hdated hrefresh asked h'
  exact Condition.of_heard hgood hkept.earlier.earlier.earlier

end Stage

/-! ## Cells -/

/-- A report with the value of another one. Diagnostics may be missing, and so may all that was printed. -/
structure RunReport.Repeats (r full : RunReport) : Prop where
  value : r.value = full.value
  diagnostics : r.diagnostics.Sublist full.diagnostics
  printed : r.printed = full.printed ∨ r.printed = ""

/-- A report with the units and the variants of another one. Diagnostics may be missing. -/
structure CompileReport.Repeats (r full : CompileReport) : Prop where
  blueprint : r.blueprint = full.blueprint
  variants : r.variants = full.variants
  diagnostics : r.diagnostics.Sublist full.diagnostics

/-- Nothing is remembered about a source, as when it is new. -/
def Cell.Blank (c : Cell) : Prop := c.forgetVariants = c ∧ c.forgetResult = c

/-- What is remembered about a source is honest, for a past that leads to its contents. -/
structure Cell.Remembers (good : Float → Prop) (H : History) (now : Nat) (c : Cell) : Prop where
  dated : c.Dated (Source.Written good) H now
  result : Condition.evaluate [] H [] now c
  variants : Condition.fillHoles [] H [] now c

/-- What is remembered about a source is honest, for some past. -/
def Cell.Honest (good : Float → Prop) (now : Nat) (c : Cell) : Prop := ∃ H, c.Remembers good H now

namespace Cell.Remembers

variable {good : Float → Prop} {H : History} {now : Nat} {c c' : Cell}

/-- Bringing the judgements up to date. -/
theorem elaborate (hgood : Apart good) (h : c.Remembers good H now) :
    (Stage.elaborate.refresh now c = none ∧ c.source.check = none) ∨
      ∃ m c', Stage.elaborate.refresh now c = some (m, c') ∧ c'.Remembers good H now ∧ c'.source = c.source ∧
        c.source.check = some ⟨Source.typeText m.outcome.value, Stage.elaborate.diagnostics c'⟩ := by
  have hrecalls := Stage.recalls_elaborate hgood
  have hcheck := Fresh.check_eq c.source
  rcases hrecalls.refresh_cases h.dated h.result.earlier.earlier with
    ⟨hrefresh, hnone⟩ | ⟨m, c', o, hrefresh, ho, hrepeats, hholds, hforget⟩
  · rw [hnone] at hcheck
    exact .inl ⟨hrefresh, hcheck⟩
  · simp only [Cell.forgetElaborated, Cell.mk.injEq, true_and] at hforget
    rcases hforget with ⟨hsource, hprogramAt, hmodeAt, hexplicit, hjudged, hblueprint, hvariants, hresult⟩
    have hkept : Kept .makeExplicit H now c c' := Stage.Holds.kept (hrecalls.kept h.dated hrefresh) hexplicit
    have hdated := h.dated.congr hsource hprogramAt hmodeAt
    refine .inr ⟨m, c', hrefresh, ⟨hdated, ?_, ?_⟩, hsource, ?_⟩
    · exact hkept.evaluate hresult [] h.result
    · exact hkept.fillHoles hjudged hblueprint hvariants [] h.variants
    · rw [hcheck, ho, Option.map_some, hrepeats.value_eq]
      rcases Stage.Holds.current hholds hdated List.mem_cons_self with ⟨m', o', hm', -, ho', hrepeats'⟩
      rw [hsource] at ho'
      cases ho.symm.trans ho'
      have hstart : Link.start.diagnostics c' = [] := rfl
      rw [Stage.diagnostics, hm']
      simp only [Stage.elaborate, hstart, ite_self, List.append_nil, hrepeats'.diagnostics_eq]

/-- The output that has been shown is forgotten. -/
theorem silence (h : c.Remembers good H now) :
    Cell.Remembers good H now { c with result := c.result.map Memo.silenced } := by
  have hkept : Kept .makeExplicit H now c { c with result := c.result.map Memo.silenced } :=
    .makeExplicit rfl rfl
  refine ⟨h.dated.congr rfl rfl rfl, ⟨?_, ?_, fun hne => absurd rfl hne⟩,
    hkept.fillHoles rfl rfl rfl [] h.variants⟩
  · have hverified : Stage.evaluate.verified { c with result := c.result.map Memo.silenced } =
        Stage.evaluate.verified c := by
      show ((c.result.map Memo.silenced).map _).toList = (c.result.map _).toList
      rw [Option.map_map]
      rfl
    rw [hverified]
    exact hkept _ h.result.earlier
  · intro m hm
    rcases Option.map_eq_some_iff.1 hm with ⟨m', hm', rfl⟩
    exact (h.result.memo m' hm').silenced

/-- Bringing the result up to date. -/
theorem evaluate (hgood : Apart good) (h : c.Remembers good H now) :
    (Stage.evaluate.refresh now c = none ∧ c.source.run = none) ∨
      ∃ m c' full, Stage.evaluate.refresh now c = some (m, c') ∧ c'.Remembers good H now ∧
        c'.source = c.source ∧ c.source.run = some full ∧
        RunReport.Repeats ⟨m.outcome.value, Stage.evaluate.diagnostics c', m.outcome.printed⟩ full := by
  have hrecalls := Stage.recalls_evaluate [] hgood
  have hrun := Fresh.run_eq c.source
  rcases hrecalls.refresh_cases h.dated h.result with
    ⟨hrefresh, hnone⟩ | ⟨m, c', o, hrefresh, ho, hrepeats, hholds, hforget⟩
  · rw [hnone] at hrun
    exact .inl ⟨hrefresh, hrun⟩
  · simp only [Cell.forgetResult, Cell.forgetExplicit, Cell.forgetElaborated, Cell.mk.injEq, true_and,
      and_true] at hforget
    rcases hforget with ⟨hsource, hprogramAt, hmodeAt, hjudged, hblueprint, hvariants⟩
    have hdated := h.dated.congr hsource hprogramAt hmodeAt
    have hkept := Stage.kept_evaluate hgood h.dated h.result hrefresh
    rw [ho] at hrun
    refine .inr ⟨m, c', _, hrefresh, ⟨hdated, ?_, ?_⟩, hsource, hrun, ?_, ?_, ?_⟩
    · exact hrecalls.mono hholds (List.nil_subset _)
    · exact hkept.fillHoles hjudged hblueprint hvariants [] h.variants
    · exact hrepeats.value_eq
    · exact hrecalls.diagnostics hdated hholds List.mem_cons_self (hsource ▸ ho)
    · exact hrepeats.printed_eq

/-- Bringing the variants up to date, and the units after them. -/
theorem fillHoles (hgood : Apart good) (h : c.Remembers good H now) :
    (Stage.fillHoles.refresh now c = none ∧ c.source.compile = none) ∨
      ∃ m c' b full, Stage.fillHoles.refresh now c = some (m, c') ∧ Stage.split.refresh now c' = some (b, c') ∧
        c'.Remembers good H now ∧ c'.source = c.source ∧ c.source.compile = some full ∧
        CompileReport.Repeats ⟨b.outcome.value, m.outcome.value, Stage.fillHoles.diagnostics c'⟩ full := by
  have hrecalls := Stage.recalls_fillHoles [] hgood
  have hcompile := Fresh.compile_eq c.source
  rcases hrecalls.refresh_cases h.dated h.variants with
    ⟨hrefresh, hnone⟩ | ⟨m, c', o, hrefresh, ho, hrepeats, hholds, hforget⟩
  · exact .inl ⟨hrefresh, Fresh.compile_eq_none hnone⟩
  · simp only [Cell.forgetVariants, Cell.forgetBlueprint, Cell.forgetJudged, Cell.forgetExplicit,
      Cell.forgetElaborated, Cell.mk.injEq, true_and] at hforget
    rcases hforget with ⟨hsource, hprogramAt, hmodeAt, hresult⟩
    have hdated := h.dated.congr hsource hprogramAt hmodeAt
    have hkept := Stage.kept_fillHoles hgood h.dated h.variants hrefresh
    -- the units have been brought up to date with the variants
    have hasked : now ∈ Stage.fillHoles.verified c' ++ [now] := List.mem_append_right _ List.mem_cons_self
    rcases Stage.Holds.current hholds.earlier hdated hasked with ⟨b, units, hb, hverified, hunits, hrepeatsUnits⟩
    rw [hsource] at hunits
    replace hunits : Fresh.split c.source = some units := hunits
    rw [Fresh.fillHoles_eq, hunits] at ho
    rcases Option.map_eq_some_iff.1 ho with ⟨variants, hvariants, rfl⟩
    rw [hunits, Option.bind_some, hvariants] at hcompile
    refine .inr ⟨m, c', b, _, hrefresh, Stage.refresh_of_verified hb hverified, ⟨hdated, ?_, ?_⟩, hsource,
      hcompile, ?_, ?_, ?_⟩
    · exact hkept.evaluate hresult [] h.result
    · exact hrecalls.mono hholds (List.nil_subset _)
    · exact hrepeatsUnits.value_eq
    · exact hrepeats.value_eq
    · refine hrecalls.diagnostics (o := (variants, variants.diagnostics ++ units.2)) hdated hholds List.mem_cons_self ?_
      rw [hsource, Fresh.fillHoles_eq, hunits, Option.bind_some, hvariants]
      rfl

/-- The same memos in a later revision, of contents that may have been edited. -/
theorem edited {H' : History} {now' : Nat} (hgood : Apart good) (h : c.Remembers good H now)
    (hH : ∀ r ≤ now, H' r = H r) (hnow : now ≤ now') (hdated : c'.Dated (Source.Written good) H' now')
    (hexplicit : c'.elaborated = c.elaborated ∧ c'.explicit = c.explicit) (hresult : c'.result = c.result)
    (hjudged : c'.judged = c.judged) (hblueprint : c'.blueprint = c.blueprint)
    (hvariants : c'.variants = c.variants) : c'.Remembers good H' now' := by
  have hkept : Kept .makeExplicit H' now' c c' := .makeExplicit hexplicit.1 hexplicit.2
  refine ⟨hdated, ?_, ?_⟩
  · exact hkept.evaluate hresult [] ((Stage.recalls_evaluate [] hgood).later h.result hH hnow)
  · exact hkept.fillHoles hjudged hblueprint hvariants []
      ((Stage.recalls_fillHoles [] hgood).later h.variants hH hnow)

end Cell.Remembers

/-- The history up to now, and another source from then on. -/
def History.edit (H : History) (now : Nat) (source : Source) : History :=
  fun r => if r ≤ now then H r else source

/-- A part of the source that has been the same since some revision is so after an edit, which either leaves
it alone or is its last change. -/
theorem History.part_edit {α : Type} {part : Source → α} {now since since' : Nat} {old source : Source}
    (H : History) (h : ∀ r, since ≤ r → part (H r) = part old)
    (hedit : since' = now + 1 ∨ since' = since ∧ part source = part old) :
    ∀ r, since' ≤ r → part (H.edit now source r) = part source := by
  intro r hr
  unfold edit
  split
  · next hle =>
    rcases hedit with rfl | ⟨rfl, hsame⟩
    · exact absurd hr (Nat.not_le_of_gt (Nat.lt_succ_of_le hle))
    · rw [h r hr, hsame]
  · rfl

theorem le_of_edit {now since since' : Nat} {unedited : Prop} (h : since ≤ now)
    (hedit : since' = now + 1 ∨ since' = since ∧ unedited) : since' ≤ now + 1 := by
  rcases hedit with rfl | ⟨rfl, -⟩
  · exact Nat.le_refl _
  · exact Nat.le_succ_of_le h

namespace Cell

variable {good : Float → Prop} {now : Nat} {c : Cell}

/-- Nothing is remembered about a new source. -/
theorem honest_new {source : Source} (h : source.Written good) (now : Nat) :
    Cell.Honest good now { source, programAt := now, modeAt := now } := by
  have hexplicit : Condition.makeExplicit (fun _ => source) [] now { source, programAt := now, modeAt := now } :=
    .blank rfl (.blank rfl trivial)
  refine ⟨fun _ => source, ⟨?_, .blank rfl hexplicit, .blank rfl (.blank rfl (.blank rfl hexplicit))⟩⟩
  exact ⟨fun _ => h, fun _ _ => rfl, fun _ _ => rfl, Nat.le_refl now, Nat.le_refl now⟩

/-- Time passes. -/
theorem Honest.later (hgood : Apart good) (h : c.Honest good now) {now' : Nat} (hnow : now ≤ now') :
    c.Honest good now' := by
  rcases h with ⟨H, h⟩
  rcases h.dated with ⟨hsources, hprogram, hmode, hprogramAt, hmodeAt⟩
  have hdated : c.Dated (Source.Written good) H now' :=
    ⟨hsources, hprogram, hmode, Nat.le_trans hprogramAt hnow, Nat.le_trans hmodeAt hnow⟩
  exact ⟨H, h.edited hgood (fun _ _ => rfl) hnow hdated ⟨rfl, rfl⟩ rfl rfl rfl rfl⟩

theorem Honest.written (h : c.Honest good now) : c.source.Written good := by
  rcases h with ⟨H, h⟩
  rw [← h.dated.source_eq]
  exact h.dated.good now

/-- A source is edited in a new revision. What is edited is dated to that revision. -/
theorem Honest.edit (hgood : Apart good) (h : c.Honest good now) {source : Source} {programAt modeAt : Nat}
    (hsource : source.Written good)
    (hprogram : programAt = now + 1 ∨ programAt = c.programAt ∧ source.program = c.source.program)
    (hmode : modeAt = now + 1 ∨ modeAt = c.modeAt ∧ source.mode = c.source.mode) :
    Cell.Honest good (now + 1) { c with source, programAt, modeAt } := by
  rcases h with ⟨H, h⟩
  have hdated := h.dated
  have hpast : ∀ r ≤ now, H.edit now source r = H r := fun r hr => if_pos hr
  refine ⟨H.edit now source, h.edited hgood hpast (Nat.le_succ now) ⟨fun r => ?_, ?_, ?_, ?_, ?_⟩ ⟨rfl, rfl⟩
    rfl rfl rfl rfl⟩
  · unfold History.edit
    split
    · exact hdated.good r
    · exact hsource
  · exact H.part_edit hdated.program hprogram
  · exact H.part_edit hdated.mode hmode
  · exact le_of_edit hdated.programAt_le hprogram
  · exact le_of_edit hdated.modeAt_le hmode

end Cell

/-! ## Sessions -/

namespace Session

/-- What a session can be told to do. -/
inductive Command where
  /-- the files are changed into these -/
  | change (files : Files)
  | add (source : Source)
  | load (name : String) (mode : Mode)
  | setProgram (index : Nat) (program : Program)
  | setMode (index : Nat) (mode : Mode)
  | check (index : Nat)
  | run (index : Nat)
  | compile (index : Nat)

/-- The session after a command. There is none if a stage has no outcome. -/
def obey (s : Session) : Command → Option Session
  | .change files => some { s with files }
  | .add source => some (s.add source).2
  | .load name mode => some (s.load name mode).2
  | .setProgram index program => some (s.setProgram index program)
  | .setMode index mode => some (s.setMode index mode)
  | .check index => (s.check index).map (·.2)
  | .run index => (s.run index).map (·.2)
  | .compile index => (s.compile index).map (·.2)

/-- The programs in files have doubles of a kind only. -/
def FilesWritten (good : Float → Prop) (files : Files) : Prop :=
  ∀ path program, files.program path = .ok program → program.root.Written good

/-- The programs that a command brings have doubles of a kind only. -/
def Command.Written (good : Float → Prop) : Command → Prop
  | .change files => FilesWritten good files
  | .add source => source.Written good
  | .setProgram _ program => program.root.Written good
  | .load .. | .setMode .. | .check .. | .run .. | .compile .. => True

/-- All that a session remembers is honest. -/
structure Honest (good : Float → Prop) (s : Session) : Prop where
  files : FilesWritten good s.files
  cells : ∀ c ∈ s.cells, c.Honest good s.now

variable {good : Float → Prop} {s s' : Session} {index : Nat} {c c' : Cell}

/-! ### One report -/

theorem source?_of_cell (hc : s.cells[index]? = some c) : s.source? index = some c.source := by
  rw [source?, hc]
  rfl

theorem Honest.set (h : s.Honest good) (hc' : c'.Honest good s.now) :
    Session.Honest good { s with cells := s.cells.set index c' } := by
  refine ⟨h.files, fun c hc => ?_⟩
  rcases List.mem_or_eq_of_mem_set hc with hc | rfl
  · exact h.cells c hc
  · exact hc'

theorem source?_set (hc : s.cells[index]? = some c) (hsource : c'.source = c.source) (i : Nat) :
    Session.source? { s with cells := s.cells.set index c' } i = s.source? i := by
  unfold source?
  rw [List.getElem?_set]
  split
  · next heq =>
    subst heq
    rw [if_pos (List.getElem?_eq_some_iff.1 hc).1, hc, Option.map_some, Option.map_some, hsource]
  · rfl

/-- What can become of a cell when its source is reported on, if the report should be that of `g`. -/
inductive Reported {α β : Type} (good : Float → Prop) (now : Nat) (R : α → β → Prop) (g : Source → Option β)
    (c : Cell) : Option (α × Cell) → Prop where
  | failed : g c.source = none → Reported good now R g c none
  | done {a : α} {b : β} {c' : Cell} : g c.source = some b → R a b → c'.Honest good now →
    c'.source = c.source → Reported good now R g c (some (a, c'))

/-- If reports on a cell are as they should be, so are reports of a session, which stays honest and keeps its
sources. -/
theorem report_spec {α β : Type} {R : α → β → Prop} {f : Cell → Option (α × Cell)} {g : Source → Option β}
    (h : s.Honest good) (hf : ∀ c, c.Honest good s.now → Reported good s.now R g c (f c)) (index : Nat) :
    Option.Rel R ((s.report index f).map (·.1)) ((s.source? index).bind g) ∧
      ∀ a s', s.report index f = some (a, s') → s'.Honest good ∧ s'.source? = s.source? := by
  unfold report
  cases hc : s.cells[index]? with
  | none =>
    -- there is no such source, and the session is not asked
    have hsource : s.source? index = none := by
      rw [source?, hc]
      rfl
    rw [hsource]
    refine ⟨.none, ?_⟩
    intro a s' hsome
    cases hsome
  | some c =>
    -- the cell that has been asked is put back, with what it remembers now
    have hreported := hf c (h.cells c (List.mem_of_getElem? hc))
    rw [source?_of_cell hc]
    simp only [Option.bind_eq_bind, Option.bind_some]
    generalize f c = result at hreported ⊢
    cases hreported with
    | failed hnone =>
      rw [hnone]
      refine ⟨.none, ?_⟩
      intro a s' hsome
      cases hsome
    | done hg hR hc' hsource =>
      rw [hg]
      refine ⟨.some hR, ?_⟩
      intro a s' hsome
      cases hsome
      exact ⟨h.set hc', funext (source?_set hc hsource)⟩

theorem Honest.add (h : s.Honest good) {source : Source} (hsource : source.Written good) :
    (s.add source).2.Honest good := by
  refine ⟨h.files, fun c hc => ?_⟩
  rcases List.mem_append.1 hc with hc | hc
  · exact h.cells c hc
  · cases List.mem_singleton.1 hc
    exact Cell.honest_new hsource s.now

/-- Loading a file keeps a session honest. -/
theorem Honest.load (h : s.Honest good) (name : String) (mode : Mode) : (s.load name mode).2.Honest good := by
  rcases s.load_cases name mode with ⟨e, hload, -⟩ | ⟨path, index, -, -, hload⟩ |
    ⟨path, program, -, -, hprogram, hload⟩
  · rw [hload]
    exact h
  · rw [hload]
    exact h
  · rw [hload]
    have hadd : (s.add ⟨program, mode⟩).2.Honest good := h.add (h.files path program hprogram)
    exact ⟨hadd.files, hadd.cells⟩

section Reports

variable (hgood : Apart good)
include hgood

/-- A check is that of the source from scratch, and leaves the session honest. -/
theorem check_spec (h : s.Honest good) (index : Nat) :
    Option.Rel Eq ((s.check index).map (·.1)) ((s.source? index).bind Source.check) ∧
      ∀ r s', s.check index = some (r, s') → s'.Honest good ∧ s'.source? = s.source? := by
  refine report_spec h (fun c hc => ?_) index
  rcases hc with ⟨H, hc⟩
  rcases hc.elaborate hgood with ⟨hrefresh, hnone⟩ | ⟨m, c', hrefresh, hc', hsource, hcheck⟩
  · rw [hrefresh]
    exact .failed hnone
  · rw [hrefresh]
    exact .done hcheck rfl ⟨H, hc'⟩ hsource

/-- A run repeats that of the source from scratch, and leaves the session honest. -/
theorem run_spec (h : s.Honest good) (index : Nat) :
    Option.Rel RunReport.Repeats ((s.run index).map (·.1)) ((s.source? index).bind Source.run) ∧
      ∀ r s', s.run index = some (r, s') → s'.Honest good ∧ s'.source? = s.source? := by
  refine report_spec h (fun c hc => ?_) index
  rcases hc with ⟨H, hc⟩
  rcases hc.silence.evaluate hgood with ⟨hrefresh, hnone⟩ | ⟨m, c', full, hrefresh, hc', hsource, hrun, hrepeats⟩
  · rw [hrefresh]
    exact .failed hnone
  · rw [hrefresh]
    exact .done hrun hrepeats ⟨H, hc'⟩ hsource

/-- A compilation repeats that of the source from scratch, and leaves the session honest. -/
theorem compile_spec (h : s.Honest good) (index : Nat) :
    Option.Rel CompileReport.Repeats ((s.compile index).map (·.1)) ((s.source? index).bind Source.compile) ∧
      ∀ r s', s.compile index = some (r, s') → s'.Honest good ∧ s'.source? = s.source? := by
  refine report_spec h (fun c hc => ?_) index
  rcases hc with ⟨H, hc⟩
  rcases hc.fillHoles hgood with
    ⟨hrefresh, hnone⟩ | ⟨m, c', b, full, hrefresh, hsplit, hc', hsource, hcompile, hrepeats⟩
  · rw [hrefresh]
    exact .failed hnone
  · rw [hrefresh]
    simp only [Option.bind_eq_bind, Option.bind_some]
    rw [hsplit]
    exact .done hcompile hrepeats ⟨H, hc'⟩ hsource

/-! ### Commands -/

/-- One cell is edited, and for the others time passes. -/
theorem Honest.edit (h : s.Honest good) (index : Nat) {f : Nat → Cell → Cell}
    (hf : ∀ c, c.Honest good s.now → (f (s.now + 1) c).Honest good (s.now + 1)) : (s.edit index f).Honest good := by
  refine ⟨h.files, fun c hc => ?_⟩
  rcases List.getElem?_of_mem hc with ⟨i, hc⟩
  replace hc : (s.cells.modify index (f (s.now + 1)))[i]? = some c := hc
  rw [List.getElem?_modify] at hc
  rcases Option.map_eq_some_iff.1 hc with ⟨c₀, hc₀, rfl⟩
  have hbefore := h.cells c₀ (List.mem_of_getElem? hc₀)
  split
  · exact hf c₀ hbefore
  · exact hbefore.later hgood (Nat.le_succ s.now)

/-- Commands keep a session honest. -/
theorem Honest.obey {command : Command} (h : s.Honest good) (hcommand : command.Written good)
    (hs' : s.obey command = some s') : s'.Honest good := by
  cases command with
  | change files =>
    cases hs'
    exact ⟨hcommand, h.cells⟩
  | add source =>
    cases hs'
    exact h.add hcommand
  | load name mode =>
    cases hs'
    exact h.load name mode
  | setProgram index program =>
    cases hs'
    exact h.edit hgood index fun c hc => hc.edit hgood hcommand (.inl rfl) (.inr ⟨rfl, rfl⟩)
  | setMode index mode =>
    cases hs'
    exact h.edit hgood index fun c hc => hc.edit hgood hc.written (.inr ⟨rfl, rfl⟩) (.inl rfl)
  | check index =>
    rcases Option.map_eq_some_iff.1 hs' with ⟨⟨r, s₁⟩, hr, rfl⟩
    exact ((check_spec hgood h index).2 r s₁ hr).1
  | run index =>
    rcases Option.map_eq_some_iff.1 hs' with ⟨⟨r, s₁⟩, hr, rfl⟩
    exact ((run_spec hgood h index).2 r s₁ hr).1
  | compile index =>
    rcases Option.map_eq_some_iff.1 hs' with ⟨⟨r, s₁⟩, hr, rfl⟩
    exact ((compile_spec hgood h index).2 r s₁ hr).1

/-- What each command keeps, all of them keep. -/
theorem Honest.obeyAll {commands : List Command} (h : s.Honest good)
    (hcommands : ∀ command ∈ commands, command.Written good) (hs' : commands.foldlM Session.obey s = some s') :
    s'.Honest good := by
  induction commands generalizing s with
  | nil =>
    cases hs'
    exact h
  | cons command rest ih =>
    rcases List.forall_mem_cons.1 hcommands with ⟨hhead, hrest⟩
    rw [List.foldlM_cons] at hs'
    rcases Option.bind_eq_some_iff.1 hs' with ⟨s₁, hs₁, hs'⟩
    exact ih (h.obey hgood hhead hs₁) hrest hs'

/-- **A session reports what its sources come to.** After any commands, whatever has been remembered, a check is
the check of the source from scratch. A run and a compilation have the value, the units and the variants that the
source has from scratch, and no diagnostics that it does not have. -/
theorem reports_current {files : Files} {commands : List Command} (hfiles : FilesWritten good files)
    (hcommands : ∀ command ∈ commands, command.Written good)
    (h : commands.foldlM obey (start files) = some s) (index : Nat) :
    (s.check index).map (·.1) = (s.source? index).bind Source.check ∧
      Option.Rel RunReport.Repeats ((s.run index).map (·.1)) ((s.source? index).bind Source.run) ∧
      Option.Rel CompileReport.Repeats ((s.compile index).map (·.1)) ((s.source? index).bind Source.compile) := by
  have hstart : (start files).Honest good := by
    refine ⟨hfiles, fun c hc => ?_⟩
    cases hc
  have hs := hstart.obeyAll hgood hcommands h
  refine ⟨?_, (run_spec hgood hs index).1, (compile_spec hgood hs index).1⟩
  have hcheck := (check_spec hgood hs index).1
  generalize (s.check index).map (·.1) = report at hcheck ⊢
  generalize (s.source? index).bind Source.check = full at hcheck ⊢
  cases hcheck with
  | none => rfl
  | some heq => rw [heq]

end Reports

-- an error is not told again once another source has been edited
example :
    let broken : Source := ⟨⟨.lookup ⟨0, ⟨0, 0⟩⟩ "x", ⟨1⟩⟩, .general⟩
    let commands := [Command.add broken, .add broken, .run 0, .setMode 1 .general]
    ((commands.foldlM obey (start default)).bind fun s => (s.run 0).map (·.1.diagnostics)) = some [] ∧
      broken.run.map (·.diagnostics.length) = some 1 := by
  decide

-- the two zeros are not told apart, and so the value of the one is reported for the other
example :
    let zero (x : Float) : Source := ⟨⟨.literal ⟨0, ⟨0, 0⟩⟩ (.float x), ⟨1⟩⟩, .general⟩
    let commands := [Command.add (zero 0.0), .run 0, .setProgram 0 (zero (-0.0)).program]
    ((commands.foldlM obey (start default)).bind fun s => (s.run 0).map (·.1.value)) = some (some "0") ∧
      (zero (-0.0)).run.map (·.value) = some (some "-0") := by
  decide +kernel

/-! ### First reports -/

theorem map_report {α : Type} {f : Cell → Option (α × Cell)} (hc : s.cells[index]? = some c) :
    (s.report index f).map (·.1) = (f c).map (·.1) := by
  rw [report, hc]
  simp only [Option.bind_eq_bind, Option.bind_some]
  cases f c with
  | none => rfl
  | some result => rfl

/-- Nothing is missing in the first report on a source: this is its evaluation. -/
theorem first_run (hc : s.cells[index]? = some c) (hblank : c.Blank) : (s.run index).map (·.1) = c.source.run := by
  have hresult : { c with result := c.result.map Memo.silenced } = c := by
    have hnone : none = c.result := congrArg Cell.result hblank.2
    rw [← hnone]
    exact hblank.2 ▸ rfl
  rw [run, map_report hc, Fresh.run_eq]
  dsimp only
  rw [hresult]
  have htold := Stage.tells_evaluate s.now c hblank.2
  replace htold : Told _ _ _ _ (Stage.evaluate.refresh s.now c) := htold
  generalize Stage.evaluate.refresh s.now c = result at htold ⊢
  cases htold with
  | failed hnone =>
    rw [hnone]
    rfl
  | done ho houtcome _ hdiagnostics _ =>
    rw [ho, Option.map_some, ← houtcome, ← hdiagnostics]
    rfl

/-- Nothing is missing in the first report on a source: these are its units and variants. -/
theorem first_compile (hc : s.cells[index]? = some c) (hblank : c.Blank) :
    (s.compile index).map (·.1) = c.source.compile := by
  have hblankSplit : c.forgetBlueprint = c := by
    have hforget : c.forgetVariants.forgetBlueprint = c.forgetVariants := rfl
    rwa [hblank.1] at hforget
  have htold : Told _ _ _ _ (Stage.fillHoles.refresh s.now c) := Stage.tells_fillHoles s.now c hblank.1
  rw [compile, map_report hc]
  dsimp only
  rcases Stage.first_cases Stage.tells_split (Stage.placed_fillHoles []) hblank.1 s.now with ⟨hrefresh, hnone⟩ |
    ⟨m, input, c₁, b, o, hrefresh, hsplit, hb, ho, houtcome, -⟩
  · rw [hrefresh, Fresh.compile_eq_none hnone]
    rfl
  · -- the units have been computed on the way
    rcases Stage.first_cases Stage.tells_judgeExplicit (Stage.placed_split []) hblankSplit s.now with
      ⟨hrefresh', -⟩ | ⟨m', input', c₂, b', o', hrefresh', -, hb', ho', houtcome', hverified', -⟩
    · cases hrefresh'.symm.trans hsplit
    · cases hrefresh'.symm.trans hsplit
      have hunits : Stage.split.refresh s.now (Stage.fillHoles.remember m (Stage.split.remember input c₂)) =
          some (input, Stage.fillHoles.remember m (Stage.split.remember input c₂)) :=
        Stage.refresh_of_verified rfl hverified'
      have hvalue : b.1 = input.outcome := by
        rw [Fresh.split_eq, hb'] at hb
        rcases Option.map_eq_some_iff.1 hb with ⟨o₁, ho₁, rfl⟩
        cases ho₁.symm.trans ho'
        exact houtcome'.symm
      subst houtcome
      replace ho : c.source.fillHoles b.1.value = some m.outcome := ho
      rw [hrefresh] at htold ⊢
      cases htold with
      | done htold _ _ hdiagnostics _ =>
        rw [Fresh.fillHoles_eq, hb, Option.bind_some, ho] at htold
        cases htold
        rw [Fresh.compile_eq, hb, Option.bind_some, ho, Option.map_some, hvalue]
        show Option.map _ ((Stage.split.refresh s.now _).bind _) = _
        rw [hunits]
        exact congrArg (fun diagnostics => some (CompileReport.mk _ _ diagnostics)) hdiagnostics

end Session

end Multistage
