import Multistage.Session

/-!
# Remembered stages are current

A stage that is brought up to date is computed again, or its memo is confirmed. Either way its outcome is
the one that the source has now, as if nothing had been remembered.

The past of a source is a `History`, its contents in every revision. A memo is honest (`Memo.Honest`) if its
outcome is that of the revision it was last verified in, and if its value has not changed since `changedAt`,
as far as later stages can ask. They ask about the revisions that they were verified in themselves. In the
revisions between, the value may have changed and changed back.

`Link.Recalls` is what a stage owes to those after it. Main statement: `Stage.recalls`, a stage keeps this
up if the one before it does, if its outcomes depend on no more than they say (`Stage.Honest`), and if
values that count as the same are equal (`Stage.Exact`).

A stage that is confirmed may fail to mention diagnostics of the stages before it. This does not happen when
the stages are computed for the first time (`Stage.tells`).
-/

namespace Multistage

/-- The contents of a source in every revision. -/
abbrev History := Nat → Source

/-- What a stage comes to if nothing is remembered: its outcome, and the diagnostics of all stages up to it,
those of the last one first. -/
abbrev Fresh (α : Type) := Source → Option (Outcome α × List Diagnostic)

/-- A condition on a cell in a revision, given the history of the source and the revisions that later stages
can ask about. -/
abbrev Condition := History → List Nat → Nat → Cell → Prop

/-- A condition stays when a cell is changed. -/
def Kept (holds : Condition) (H : History) (now : Nat) (c c' : Cell) : Prop :=
  ∀ asked, holds H asked now c → holds H asked now c'

/-- A condition, if other stages ask as well. -/
def Condition.heard (others : List Nat) (holds : Condition) : Condition := fun H asked =>
  holds H (asked ++ others)

theorem Kept.heard {holds : Condition} {others : List Nat} {H : History} {now : Nat} {c c' : Cell}
    (h : Kept holds H now c c') : Kept (holds.heard others) H now c c' :=
  fun asked hholds => h (asked ++ others) hholds

/-- An outcome is repeated. What was printed may not be printed again. -/
def Outcome.Repeats {α : Type} (o o' : Outcome α) : Prop := o = o' ∨ o = { o' with printed := "" }

/-- A memo tells the truth about the past of its source, which comes to `fresh`. -/
structure Memo.Honest {α : Type} (m : Memo α) (fresh : Fresh α) (H : History) (asked : List Nat) (now : Nat) :
    Prop where
  past : m.verifiedAt ≤ now
  outcome : ∃ o, fresh (H m.verifiedAt) = some o ∧ m.outcome.Repeats o.1
  /-- later stages were not verified later -/
  asked_le : ∀ r ∈ asked, r ≤ m.verifiedAt
  unchanged : ∀ r ∈ asked, m.changedAt ≤ r → ∃ o, fresh (H r) = some o ∧ o.1.value = m.outcome.value

/-- A history leads to the contents of a cell, and has had them since the last edits. All its sources are
`good`. -/
structure Cell.Dated (good : Source → Prop) (H : History) (now : Nat) (c : Cell) : Prop where
  good : ∀ r, good (H r)
  program : ∀ r, c.programAt ≤ r → (H r).program = c.source.program
  mode : ∀ r, c.modeAt ≤ r → (H r).mode = c.source.mode
  programAt_le : c.programAt ≤ now
  modeAt_le : c.modeAt ≤ now

section Links

variable {α : Type} (good : Source → Prop) (fresh : Fresh α) (holds : Condition) (forget : Cell → Cell)
  (H : History) (asked : List Nat) (now : Nat) (c : Cell)

/-- What can become of a cell when a stage is brought up to date. Only memos that `forget` forgets have
changed. -/
inductive Refreshed : Option (Memo α × Cell) → Prop where
  | failed : fresh c.source = none → Refreshed none
  | done {m : Memo α} {c' : Cell} {o : Outcome α × List Diagnostic} : fresh c.source = some o →
    m.outcome.Repeats o.1 →
    (∀ r ∈ asked, m.changedAt ≤ r → ∃ o', fresh (H r) = some o' ∧ o'.1.value = m.outcome.value) →
    holds H (now :: asked) now c' → forget c' = forget c → Refreshed (some (m, c'))

/-- What can become of a cell when a stage is asked whether it has changed since a revision. -/
inductive Answered (revision : Nat) : Option (Change × Cell) → Prop where
  | failed : fresh c.source = none → Answered revision none
  | changed {c' : Cell} : holds H asked now c' → forget c' = forget c →
    Answered revision (some (.changed, c'))
  | unchanged {c' : Cell} {reports : Bool} {o o' : Outcome α × List Diagnostic} :
    fresh (H revision) = some o → fresh c.source = some o' → o.1.value = o'.1.value →
    holds H (now :: asked) now c' → forget c' = forget c →
    Answered revision (some (.unchanged reports, c'))

/-- A link keeps a condition on its memos, and as long as this holds its answers are those of `fresh`. -/
structure Link.Recalls (L : Link α) : Prop where
  mono {H : History} {asked asked' : List Nat} {now : Nat} {c : Cell} :
    holds H asked now c → asked' ⊆ asked → holds H asked' now c
  join {H : History} {asked asked' : List Nat} {now : Nat} {c : Cell} :
    holds H asked now c → holds H asked' now c → holds H (asked ++ asked') now c
  later {H H' : History} {asked : List Nat} {now now' : Nat} {c : Cell} :
    holds H asked now c → (∀ r ≤ now, H' r = H r) → now ≤ now' → holds H' asked now' c
  refresh {H : History} {asked : List Nat} {now : Nat} {c : Cell} :
    c.Dated good H now → holds H asked now c →
    Refreshed fresh holds forget H asked now c (L.refresh now c)
  changedSince {H : History} {asked : List Nat} {now revision : Nat} {c : Cell} :
    c.Dated good H now → holds H asked now c → revision ∈ asked →
    Answered fresh holds forget H asked now c revision (L.changedSince now revision c)
  diagnostics {H : History} {asked : List Nat} {now : Nat} {c : Cell} {o : Outcome α × List Diagnostic} :
    c.Dated good H now → holds H asked now c → now ∈ asked → fresh c.source = some o →
    (L.diagnostics c).Sublist o.2

end Links

namespace Outcome.Repeats

variable {α : Type} {o o' : Outcome α}

theorem value_eq (h : o.Repeats o') : o.value = o'.value := by
  rcases h with rfl | rfl <;> rfl

theorem diagnostics_eq (h : o.Repeats o') : o.diagnostics = o'.diagnostics := by
  rcases h with rfl | rfl <;> rfl

theorem readsMode_eq (h : o.Repeats o') : o.readsMode = o'.readsMode := by
  rcases h with rfl | rfl <;> rfl

theorem readsProgram_eq (h : o.Repeats o') : o.readsProgram = o'.readsProgram := by
  rcases h with rfl | rfl <;> rfl

theorem printed_eq (h : o.Repeats o') : o.printed = o'.printed ∨ o.printed = "" := by
  rcases h with rfl | rfl
  · exact .inl rfl
  · exact .inr rfl

end Outcome.Repeats

/-- A memo stays honest when its output has been shown. -/
theorem Memo.Honest.silenced {α : Type} {m : Memo α} {fresh : Fresh α} {H : History} {asked : List Nat} {now : Nat}
    (h : m.Honest fresh H asked now) : m.silenced.Honest fresh H asked now := by
  rcases h with ⟨hpast, ⟨o, ho, hrepeats⟩, hle, hunchanged⟩
  refine ⟨hpast, ⟨o, ho, .inr ?_⟩, hle, hunchanged⟩
  rcases hrepeats with hm | hm
  · rw [← hm]
    rfl
  · unfold Memo.silenced
    rw [hm]

namespace Cell.Dated

variable {good : Source → Prop} {H : History} {now : Nat} {c c' : Cell}

/-- The history has the contents of the cell now. -/
theorem source_eq (h : c.Dated good H now) : H now = c.source := by
  have hprogram := h.program now h.programAt_le
  have hmode := h.mode now h.modeAt_le
  cases hnow : H now
  rw [hnow] at hprogram hmode
  cases hsource : c.source
  rw [hsource] at hprogram hmode
  cases hprogram
  cases hmode
  rfl

/-- What an outcome depends on has been the same since it was last edited. -/
theorem inputs_eq {β : Type} {o : Outcome β} (h : c.Dated good H now) {r : Nat}
    (hr : Stage.inputsChangedAt c o ≤ r) :
    (o.readsMode = true → (H r).mode = c.source.mode) ∧
      (o.readsProgram = true → (H r).program = c.source.program) := by
  rcases Nat.max_le.1 hr with ⟨hmode, hprogram⟩
  refine ⟨fun hreads => h.mode r ?_, fun hreads => h.program r ?_⟩
  · rwa [if_pos hreads] at hmode
  · rwa [if_pos hreads] at hprogram

theorem congr (h : c.Dated good H now) (hsource : c'.source = c.source) (hprogramAt : c'.programAt = c.programAt)
    (hmodeAt : c'.modeAt = c.modeAt) : c'.Dated good H now := by
  rcases h with ⟨hgood, hprogram, hmode, hprogramAt_le, hmodeAt_le⟩
  constructor
  · exact hgood
  · rwa [hprogramAt, hsource]
  · rwa [hmodeAt, hsource]
  · rwa [hprogramAt]
  · rwa [hmodeAt]

end Cell.Dated

/-- Before the first stage there is nothing to remember. -/
theorem Link.recalls_start (good : Source → Prop) :
    Link.start.Recalls good (fun _ => some (.skipped, [])) (fun _ _ _ _ => True) id where
  mono h _ := h
  join h _ := h
  later h _ _ := h
  refresh _ _ := .done rfl (.inl rfl) (fun _ _ _ => ⟨_, rfl, rfl⟩) trivial rfl
  changedSince _ _ _ := .unchanged rfl rfl rfl trivial rfl
  diagnostics _ _ _ _ := List.nil_sublist _

namespace Link.Recalls

variable {α : Type} {good : Source → Prop} {fresh : Fresh α} {holds : Condition} {forget : Cell → Cell} {L : Link α}

/-- A link recalls as much if other stages ask as well. -/
theorem heard (h : L.Recalls good fresh holds forget) (others : List Nat) :
    L.Recalls good fresh (holds.heard others) forget where
  mono hholds hsub := h.mono hholds (List.append_subset.2
    ⟨List.subset_append_of_subset_left _ hsub, List.subset_append_right _ _⟩)
  join hholds hholds' := h.mono (h.join hholds hholds') (by grind)
  later hholds hH hnow := h.later hholds hH hnow
  refresh {H asked now c} hdated hholds := by
    have hrefreshed := h.refresh hdated hholds
    generalize L.refresh now c = result at hrefreshed ⊢
    cases hrefreshed with
    | failed hnone => exact .failed hnone
    | done ho hrepeats hunchanged hholds' hforget =>
      exact .done ho hrepeats (fun r hr => hunchanged r (List.mem_append_left _ hr)) hholds' hforget
  changedSince {H asked now revision c} hdated hholds hrevision := by
    have hanswered := h.changedSince hdated hholds (List.mem_append_left _ hrevision)
    generalize L.changedSince now revision c = result at hanswered ⊢
    cases hanswered with
    | failed hnone => exact .failed hnone
    | changed hholds' hforget => exact .changed hholds' hforget
    | unchanged ho ho' hvalue hholds' hforget => exact .unchanged ho ho' hvalue hholds' hforget
  diagnostics hdated hholds hnow ho := h.diagnostics hdated hholds (List.mem_append_left _ hnow) ho

/-- What happens if a link is brought up to date. -/
theorem refresh_cases (h : L.Recalls good fresh holds forget) {H : History} {asked : List Nat} {now : Nat} {c : Cell}
    (hdated : c.Dated good H now) (hholds : holds H asked now c) :
    (L.refresh now c = none ∧ fresh c.source = none) ∨
      ∃ m c' o, L.refresh now c = some (m, c') ∧ fresh c.source = some o ∧ m.outcome.Repeats o.1 ∧
        holds H (now :: asked) now c' ∧ forget c' = forget c := by
  have hrefreshed := h.refresh hdated hholds
  generalize L.refresh now c = result at hrefreshed ⊢
  cases hrefreshed with
  | failed hnone => exact .inl ⟨rfl, hnone⟩
  | done ho hrepeats _ hholds' hforget => exact .inr ⟨_, _, _, rfl, ho, hrepeats, hholds', hforget⟩

/-- Bringing a link up to date keeps its condition. -/
theorem kept (h : L.Recalls good fresh holds forget) {H : History} {now : Nat} {c c' : Cell} {m : Memo α}
    (hdated : c.Dated good H now) (hrefresh : L.refresh now c = some (m, c')) : Kept holds H now c c' := by
  intro asked hholds
  have hrefreshed := h.refresh hdated hholds
  rw [hrefresh] at hrefreshed
  cases hrefreshed with
  | done _ _ _ hholds' _ => exact h.mono hholds' (List.subset_cons_self _ _)

end Link.Recalls

namespace Stage

variable {α β : Type} (s : Stage α β) (good : Source → Prop) (before : Fresh α) (holds : Condition)
  (forget forget' : Cell → Cell)

/-- What a stage comes to if nothing is remembered. -/
def fresh : Fresh β := fun source =>
  (before source).bind fun b => (s.compute source b.1.value).map fun o => (o, o.diagnostics ++ b.2)

/-- The revision that the stage was last verified in, if it has been computed. -/
def verified (c : Cell) : List Nat := ((s.memo? c).map (·.verifiedAt)).toList

/-- The memo of the stage is honest, and so are those before it, which this stage asks as well. -/
structure Holds (H : History) (asked : List Nat) (now : Nat) (c : Cell) : Prop where
  earlier : holds H (s.verified c ++ asked) now c
  memo : ∀ m, s.memo? c = some m → m.Honest (s.fresh before) H asked now
  present : asked ≠ [] → ∃ m, s.memo? c = some m

/-- An outcome depends only on the parts of the source that it says it depends on. -/
def Honest : Prop :=
  ∀ source source' input o, s.compute source input = some o →
    (o.readsMode = true → source'.mode = source.mode) →
    (o.readsProgram = true → source'.program = source.program) → s.compute source' input = some o

/-- Values of good sources that count as the same are equal. -/
def Exact : Prop :=
  ∀ source source' o o', good source → good source' → s.fresh before source = some o →
    s.fresh before source' = some o' → s.same o.1.value o'.1.value = true → o.1.value = o'.1.value

/-- The memo of a stage has a place of its own in a cell: `forget` forgets the memos before it, and `forget'`
forgets this one as well. -/
structure Placed : Prop where
  memo?_forget (c : Cell) : s.memo? (forget c) = s.memo? c
  memo?_forget' (c : Cell) : s.memo? (forget' c) = none
  memo?_remember (m : Memo β) (c : Cell) : s.memo? (s.remember m c) = some m
  forget_forget (c : Cell) : forget' (forget c) = forget' c
  forget_forget' (c : Cell) : forget (forget' c) = forget' c
  forget_remember (m : Memo β) (c : Cell) : forget' (s.remember m c) = forget' c
  kept_remember (H : History) (now : Nat) (m : Memo β) (c : Cell) : Kept holds H now c (s.remember m c)
  diagnostics_remember (m : Memo β) (c : Cell) : s.before.diagnostics (s.remember m c) = s.before.diagnostics c
  unedited (c : Cell) :
    (forget c).source = c.source ∧ (forget c).programAt = c.programAt ∧ (forget c).modeAt = c.modeAt

variable {s good before holds forget forget'} {H : History} {asked : List Nat} {now : Nat} {c c' : Cell}
  {m : Memo β}

theorem verified_of_memo (h : s.memo? c = some m) : s.verified c = [m.verifiedAt] := by
  rw [verified, h]
  rfl

theorem fresh_eq_none_of_before {source : Source} (h : before source = none) : s.fresh before source = none := by
  rw [fresh, h]
  rfl

theorem fresh_of_before {source : Source} {b : Outcome α × List Diagnostic} (h : before source = some b) :
    s.fresh before source = (s.compute source b.1.value).map fun o => (o, o.diagnostics ++ b.2) := by
  rw [fresh, h]
  rfl

/-- From a source to one that has the parts that an outcome depends on, and the same value before the stage,
the outcome stays. -/
theorem Honest.fresh_eq (h : s.Honest) {source source' : Source} {b : Outcome α × List Diagnostic} {o : Outcome β}
    (hb : before source' = some b) (ho : s.compute source b.1.value = some o)
    (hmode : o.readsMode = true → source'.mode = source.mode)
    (hprogram : o.readsProgram = true → source'.program = source.program) :
    s.fresh before source' = some (o, o.diagnostics ++ b.2) := by
  rw [fresh_of_before hb, h source source' _ o ho hmode hprogram]
  rfl

theorem Placed.memo?_eq (h : s.Placed holds forget forget') (hforget : forget c' = forget c) :
    s.memo? c' = s.memo? c := by
  rw [← h.memo?_forget c', hforget, h.memo?_forget]

theorem Placed.source_eq (h : s.Placed holds forget forget') (hforget : forget c' = forget c) :
    c'.source = c.source := by
  rw [← (h.unedited c').1, hforget, (h.unedited c).1]

theorem Placed.dated (h : s.Placed holds forget forget') (hforget : forget c' = forget c)
    (hdated : c.Dated good H now) : c'.Dated good H now := by
  have hunedited := h.unedited c
  rw [← hforget] at hunedited
  rcases h.unedited c' with ⟨-, hprogramAt, hmodeAt⟩
  exact hdated.congr (h.source_eq hforget) (hprogramAt.symm.trans hunedited.2.1)
    (hmodeAt.symm.trans hunedited.2.2)

theorem Placed.forget'_eq (h : s.Placed holds forget forget') (hforget : forget c' = forget c) :
    forget' c' = forget' c := by
  rw [← h.forget_forget c', hforget, h.forget_forget]

/-! ## Stages that are up to date -/

variable (s good before holds forget') in
/-- A cell has come to have an honest memo of this revision. -/
structure Current (H : History) (asked : List Nat) (now : Nat) (c : Cell) (m : Memo β) (c' : Cell) : Prop where
  memo : s.memo? c' = some m
  verified : m.verifiedAt = now
  state : s.Holds before holds H (now :: asked) now c'
  frame : forget' c' = forget' c

/-- The memo has the outcome that the source has now. -/
theorem Current.outcome (h : s.Current before holds forget' H asked now c m c') (hdated : c.Dated good H now) :
    ∃ o, s.fresh before c.source = some o ∧ m.outcome.Repeats o.1 := by
  have houtcome := (h.state.memo m h.memo).outcome
  rwa [h.verified, hdated.source_eq] at houtcome

theorem Current.refreshed (h : s.Current before holds forget' H asked now c m c') (hdated : c.Dated good H now) :
    Refreshed (s.fresh before) (s.Holds before holds) forget' H asked now c (some (m, c')) := by
  rcases h.outcome hdated with ⟨o, ho, hrepeats⟩
  refine .done ho hrepeats ?_ h.state h.frame
  intro r hr hle
  exact (h.state.memo m h.memo).unchanged r (List.mem_cons_of_mem _ hr) hle

/-- An answer that is current is the one to a question whether anything has changed. -/
theorem Current.answered (h : s.Current before holds forget' H asked now c m c') (hdated : c.Dated good H now)
    {revision : Nat} (hrevision : revision ∈ asked) (hmono : s.Holds before holds H asked now c') (reports : Bool) :
    Answered (s.fresh before) (s.Holds before holds) forget' H asked now c revision
      (some (.since revision m.changedAt reports, c')) := by
  rcases h.outcome hdated with ⟨o, ho, hrepeats⟩
  unfold Change.since
  split
  · exact .changed hmono h.frame
  · next hle =>
    rcases (h.state.memo m h.memo).unchanged revision (List.mem_cons_of_mem _ hrevision) (Nat.le_of_not_gt hle) with
      ⟨o', ho', hvalue⟩
    exact .unchanged ho' ho (hvalue.trans hrepeats.value_eq) h.state h.frame

namespace Holds

/-- What holds for some questions holds for fewer. -/
theorem mono (hbefore : s.before.Recalls good before holds forget) (h : s.Holds before holds H asked now c)
    {asked' : List Nat} (hsub : asked' ⊆ asked) : s.Holds before holds H asked' now c where
  earlier := hbefore.mono h.earlier (List.append_subset.2
    ⟨List.subset_append_left _ _, List.subset_append_of_subset_right _ hsub⟩)
  memo m hm := by
    rcases h.memo m hm with ⟨hpast, houtcome, hle, hunchanged⟩
    exact ⟨hpast, houtcome, fun r hr => hle r (hsub hr), fun r hr => hunchanged r (hsub hr)⟩
  present hne := by
    refine h.present fun hnil => hne ?_
    rw [hnil] at hsub
    exact List.subset_nil.1 hsub

/-- What holds for each of two lists of questions holds for all of them. -/
theorem join (hbefore : s.before.Recalls good before holds forget) {asked' : List Nat}
    (h : s.Holds before holds H asked now c) (h' : s.Holds before holds H asked' now c) :
    s.Holds before holds H (asked ++ asked') now c where
  earlier := hbefore.mono (hbefore.join h.earlier h'.earlier) (by grind)
  memo m hm := by
    rcases h.memo m hm with ⟨hpast, houtcome, hle, hunchanged⟩
    rcases h'.memo m hm with ⟨-, -, hle', hunchanged'⟩
    exact ⟨hpast, houtcome, List.forall_mem_append.2 ⟨hle, hle'⟩, List.forall_mem_append.2 ⟨hunchanged, hunchanged'⟩⟩
  present hne := by
    cases asked with
    | nil => exact h'.present hne
    | cons => exact h.present (List.cons_ne_nil _ _)

/-- Nothing is remembered, so that there is nothing to be wrong about. -/
theorem blank (hmemo : s.memo? c = none) (h : holds H [] now c) : s.Holds before holds H [] now c where
  earlier := by
    rw [verified, hmemo]
    exact h
  memo m hm := by
    rw [hmemo] at hm
    cases hm
  present hne := absurd rfl hne

/-- Nobody can ask about the future. -/
theorem asked_le (h : s.Holds before holds H asked now c) : ∀ r ∈ asked, r ≤ now := by
  intro r hr
  rcases h.present (List.ne_nil_of_mem hr) with ⟨m, hm⟩
  have hhonest := h.memo m hm
  exact Nat.le_trans (hhonest.asked_le r hr) hhonest.past

/-- In a later revision the past is still what it was. -/
theorem later (hbefore : s.before.Recalls good before holds forget) {H' : History} {now' : Nat}
    (h : s.Holds before holds H asked now c) (hH : ∀ r ≤ now, H' r = H r) (hnow : now ≤ now') :
    s.Holds before holds H' asked now' c where
  earlier := hbefore.later h.earlier hH hnow
  memo m hm := by
    rcases h.memo m hm with ⟨hpast, houtcome, hle, hunchanged⟩
    refine ⟨Nat.le_trans hpast hnow, ?_, hle, fun r hr hchanged => ?_⟩
    · rw [hH _ hpast]
      exact houtcome
    · rw [hH r (h.asked_le r hr)]
      exact hunchanged r hr hchanged
  present := h.present

/-- The memos of the stages before may have changed in an honest way. -/
theorem of_before (h : s.Holds before holds H asked now c) (hmemo : s.memo? c' = s.memo? c)
    (h' : holds H (s.verified c ++ asked) now c') : s.Holds before holds H asked now c' := by
  constructor
  · rw [verified, hmemo]
    exact h'
  · rw [hmemo]
    exact h.memo
  · rw [hmemo]
    exact h.present

theorem map {holds' : Condition} (h : s.Holds before holds H asked now c)
    (hmap : ∀ asked, holds H asked now c → holds' H asked now c) : s.Holds before holds' H asked now c :=
  ⟨hmap _ h.earlier, h.memo, h.present⟩

/-- If later stages have asked in this revision, the memo is that of this revision. -/
theorem current (h : s.Holds before holds H asked now c) (hdated : c.Dated good H now) (hnow : now ∈ asked) :
    ∃ m o, s.memo? c = some m ∧ m.verifiedAt = now ∧ s.fresh before c.source = some o ∧ m.outcome.Repeats o.1 := by
  rcases h.present (List.ne_nil_of_mem hnow) with ⟨m, hm⟩
  have hhonest := h.memo m hm
  have hverified : m.verifiedAt = now := Nat.le_antisymm hhonest.past (hhonest.asked_le now hnow)
  rcases hhonest.outcome with ⟨o, ho, hrepeats⟩
  rw [hverified, hdated.source_eq] at ho
  exact ⟨m, o, hm, hverified, ho, hrepeats⟩

theorem kept (hkept : Kept holds H now c c') (hmemo : s.memo? c' = s.memo? c) :
    Kept (s.Holds before holds) H now c c' :=
  fun _ h => h.of_before hmemo (hkept _ h.earlier)

end Holds

theorem refresh_of_verified (hmemo : s.memo? c = some m) (hverified : m.verifiedAt = now) :
    s.refresh now c = some (m, c) := by
  rw [refresh, hmemo]
  exact if_pos hverified

/-- A memo of this revision is current. -/
theorem current_self (hbefore : s.before.Recalls good before holds forget)
    (h : s.Holds before holds H asked now c) (hmemo : s.memo? c = some m) (hverified : m.verifiedAt = now) :
    s.Current before holds forget' H asked now c m c := by
  rcases h.memo m hmemo with ⟨hpast, houtcome, hle, hunchanged⟩
  refine ⟨hmemo, hverified, ⟨?_, ?_, fun _ => ⟨m, hmemo⟩⟩, rfl⟩
  · have hearlier := h.earlier
    rw [verified_of_memo hmemo, hverified] at hearlier ⊢
    exact hbefore.mono hearlier (by simp)
  · intro m' hm'
    cases hmemo.symm.trans hm'
    refine ⟨hpast, houtcome, List.forall_mem_cons.2 ⟨Nat.le_of_eq hverified.symm, hle⟩,
      List.forall_mem_cons.2 ⟨fun _ => ?_, hunchanged⟩⟩
    rcases houtcome with ⟨o, ho, hrepeats⟩
    rw [hverified] at ho
    exact ⟨o, ho, hrepeats.value_eq.symm⟩

section Steps

variable (hbefore : s.before.Recalls good before holds forget) (hplaced : s.Placed holds forget forget')
include hbefore hplaced

/-- An honest memo of this revision is written down. -/
theorem current_remember (hforget : forget c' = forget c) (hverified : m.verifiedAt = now)
    (h : holds H (now :: asked) now c') (houtcome : ∃ o, s.fresh before (H now) = some o ∧ m.outcome.Repeats o.1)
    (hpast : ∀ r ∈ asked, r ≤ now)
    (hunchanged : ∀ r ∈ asked, m.changedAt ≤ r →
      ∃ o, s.fresh before (H r) = some o ∧ o.1.value = m.outcome.value) :
    s.Current before holds forget' H asked now c m (s.remember m c') := by
  have hmemo := hplaced.memo?_remember m c'
  refine ⟨hmemo, hverified, ⟨?_, ?_, fun _ => ⟨m, hmemo⟩⟩, ?_⟩
  · rw [verified_of_memo hmemo, hverified]
    exact hplaced.kept_remember H now m c' _ (hbefore.mono h (by simp))
  · intro m' hm'
    cases hmemo.symm.trans hm'
    refine ⟨Nat.le_of_eq hverified, hverified ▸ houtcome, ?_, ?_⟩
    · rw [hverified]
      exact List.forall_mem_cons.2 ⟨Nat.le_refl now, hpast⟩
    · refine List.forall_mem_cons.2 ⟨fun _ => ?_, hunchanged⟩
      rcases houtcome with ⟨o, ho, hrepeats⟩
      exact ⟨o, ho, hrepeats.value_eq.symm⟩
  · rw [hplaced.forget_remember, hplaced.forget'_eq hforget]

/-- What happens if the stage is computed. -/
theorem execute_cases (hhonest : s.Honest) (hexact : s.Exact good before) (hdated : c.Dated good H now)
    (h : s.Holds before holds H asked now c) :
    (s.execute now c = none ∧ s.fresh before c.source = none) ∨
      ∃ m c', s.execute now c = some (m, c') ∧ s.Current before holds forget' H asked now c m c' := by
  have hrefreshed := hbefore.refresh hdated h.earlier
  unfold execute
  generalize s.before.refresh now c = result at hrefreshed ⊢
  cases hrefreshed with
  | failed hnone => exact .inl ⟨rfl, fresh_eq_none_of_before hnone⟩
  | @done input c₁ b hb hrepeats hunchanged hholds hforget =>
    have hsource := hplaced.source_eq hforget
    have hmemo := hplaced.memo?_eq hforget
    have hdated₁ := hplaced.dated hforget hdated
    have hfresh := fresh_of_before (s := s) hb
    rw [← hrepeats.value_eq] at hfresh
    simp only [Option.bind_eq_bind, Option.bind_some]
    rw [hsource]
    cases hcompute : s.compute c.source input.outcome.value with
    | none =>
      rw [hcompute] at hfresh
      exact .inl ⟨rfl, hfresh⟩
    | some outcome =>
      rw [hcompute] at hfresh
      refine .inr ⟨_, _, rfl, current_remember hbefore hplaced hforget rfl ?_ ?_ h.asked_le ?_⟩
      · exact hbefore.mono hholds (by simp)
      · exact ⟨_, hdated.source_eq.symm ▸ hfresh, .inl rfl⟩
      · intro r hr hle
        -- the value has not changed since an asked revision if its parts have not
        have hcomputed : max input.changedAt (inputsChangedAt c₁ outcome) ≤ r →
            ∃ o, s.fresh before (H r) = some o ∧ o.1.value = outcome.value := by
          intro hle
          rcases Nat.max_le.1 hle with ⟨hinput, hparts⟩
          rcases hunchanged r (List.mem_append_right _ hr) hinput with ⟨b', hb', hsame⟩
          rcases hdated₁.inputs_eq hparts with ⟨hmode, hprogram⟩
          rw [hsource] at hmode hprogram
          rw [← hsame] at hcompute
          exact ⟨_, hhonest.fresh_eq hb' hcompute hmode hprogram, rfl⟩
        simp only [hmemo] at hle
        cases hold : s.memo? c with
        | none =>
          rw [hold] at hle
          exact hcomputed hle
        | some old =>
          rw [hold] at hle
          simp only at hle
          split at hle
          · -- the same as before, so that it is as old as before
            next hsame =>
            have hhonestOld := h.memo old hold
            rcases hhonestOld.outcome with ⟨o, ho, hrepeatsOld⟩
            rcases hhonestOld.unchanged r hr hle with ⟨o', ho', hvalue⟩
            refine ⟨o', ho', hvalue.trans ?_⟩
            rw [hrepeatsOld.value_eq] at hsame ⊢
            exact hexact _ _ o _ (hdated.good _) (hdated.good now) ho (hdated.source_eq.symm ▸ hfresh) hsame
          · exact hcomputed hle

/-- What happens if the memo of an earlier revision is to be confirmed. -/
theorem confirm_cases (hhonest : s.Honest) (hdated : c.Dated good H now)
    (h : s.Holds before holds H asked now c) (hmemo : s.memo? c = some m) :
    (s.confirm now m c = none ∧ s.fresh before c.source = none) ∨
      (∃ c', s.confirm now m c = some (none, c') ∧ s.Holds before holds H asked now c' ∧
        forget c' = forget c) ∨
      ∃ m' c', s.confirm now m c = some (some m', c') ∧ s.Current before holds forget' H asked now c m' c' := by
  have hverified : m.verifiedAt ∈ s.verified c ++ asked := by
    rw [verified_of_memo hmemo]
    exact List.mem_cons_self
  have hanswered := hbefore.changedSince hdated h.earlier hverified
  unfold confirm
  generalize s.before.changedSince now m.verifiedAt c = result at hanswered ⊢
  cases hanswered with
  | failed hnone => exact .inl ⟨rfl, fresh_eq_none_of_before hnone⟩
  | @changed c₁ hholds hforget =>
    exact .inr (.inl ⟨c₁, rfl, h.of_before (hplaced.memo?_eq hforget) hholds, hforget⟩)
  | @unchanged c₁ reports b b' hb hb' hsame hholds hforget =>
    right
    have hdated₁ := hplaced.dated hforget hdated
    simp only [Option.bind_eq_bind, Option.bind_some]
    split
    · -- a part of the source that the outcome depends on has changed
      refine .inl ⟨c₁, rfl, h.of_before (hplaced.memo?_eq hforget) ?_, hforget⟩
      exact hbefore.mono hholds (List.subset_cons_self _ _)
    · next hparts =>
      rcases hdated₁.inputs_eq (Nat.le_of_not_gt hparts) with ⟨hmode, hprogram⟩
      rw [hplaced.source_eq hforget] at hmode hprogram
      have hmemoHonest := h.memo m hmemo
      rcases hmemoHonest.outcome with ⟨o, ho, hrepeats⟩
      -- the outcome of the earlier revision is that of this one
      have hnow : s.fresh before c.source = some (o.1, o.1.diagnostics ++ b'.2) := by
        rw [fresh_of_before hb] at ho
        rcases Option.map_eq_some_iff.1 ho with ⟨o₁, ho₁, rfl⟩
        rw [hrepeats.readsMode_eq] at hmode
        rw [hrepeats.readsProgram_eq] at hprogram
        rw [hsame] at ho₁
        exact hhonest.fresh_eq hb' ho₁ (fun hreads => (hmode hreads).symm)
          fun hreads => (hprogram hreads).symm
      refine .inr ⟨_, _, rfl, current_remember hbefore hplaced hforget rfl ?_ ?_ h.asked_le ?_⟩
      · exact hbefore.mono hholds (by simp)
      · exact ⟨(o.1, o.1.diagnostics ++ b'.2), hdated.source_eq.symm ▸ hnow, hrepeats⟩
      · exact hmemoHonest.unchanged

/-- A memo of an earlier revision is confirmed, or else the stage is computed. -/
theorem confirm_or_execute (hhonest : s.Honest) (hexact : s.Exact good before) (hdated : c.Dated good H now)
    (h : s.Holds before holds H asked now c) (hmemo : s.memo? c = some m) :
    s.fresh before c.source = none ∧ (s.confirm now m c = none ∨
      ∃ c₁, s.confirm now m c = some (none, c₁) ∧ s.execute now c₁ = none) ∨
    ∃ m' c', s.Current before holds forget' H asked now c m' c' ∧ (s.confirm now m c = some (some m', c') ∨
      ∃ c₁, s.confirm now m c = some (none, c₁) ∧ s.execute now c₁ = some (m', c')) := by
  rcases confirm_cases hbefore hplaced hhonest hdated h hmemo with
    ⟨hconfirm, hnone⟩ | ⟨c₁, hconfirm, hholds, hforget⟩ | ⟨m', c', hconfirm, hcurrent⟩
  · exact .inl ⟨hnone, .inl hconfirm⟩
  · rcases execute_cases hbefore hplaced hhonest hexact (hplaced.dated hforget hdated) hholds with
      ⟨hexecute, hnone⟩ | ⟨m', c', hexecute, hcurrent⟩
    · rw [hplaced.source_eq hforget] at hnone
      exact .inl ⟨hnone, .inr ⟨c₁, hconfirm, hexecute⟩⟩
    · have hframe := hcurrent.frame.trans (hplaced.forget'_eq hforget)
      exact .inr ⟨m', c', ⟨hcurrent.memo, hcurrent.verified, hcurrent.state, hframe⟩, .inr ⟨c₁, hconfirm, hexecute⟩⟩
  · exact .inr ⟨m', c', hcurrent, .inl hconfirm⟩

/-- What happens if the stage is brought up to date. -/
theorem refresh_cases (hhonest : s.Honest) (hexact : s.Exact good before) (hdated : c.Dated good H now)
    (h : s.Holds before holds H asked now c) :
    (s.refresh now c = none ∧ s.fresh before c.source = none) ∨
      ∃ m c', s.refresh now c = some (m, c') ∧ s.Current before holds forget' H asked now c m c' := by
  cases hmemo : s.memo? c with
  | none =>
    rw [refresh, hmemo]
    exact execute_cases hbefore hplaced hhonest hexact hdated h
  | some memo =>
    by_cases hverified : memo.verifiedAt = now
    · exact .inr ⟨memo, c, refresh_of_verified hmemo hverified, current_self hbefore h hmemo hverified⟩
    rw [refresh, hmemo]
    simp only [if_neg hverified]
    rcases confirm_or_execute hbefore hplaced hhonest hexact hdated h hmemo with
      ⟨hnone, hconfirm | ⟨c₁, hconfirm, hexecute⟩⟩ | ⟨m', c', hcurrent, hconfirm | ⟨c₁, hconfirm, hexecute⟩⟩
    · rw [hconfirm]
      exact .inl ⟨rfl, hnone⟩
    · rw [hconfirm]
      exact .inl ⟨hexecute, hnone⟩
    · rw [hconfirm]
      exact .inr ⟨m', c', rfl, hcurrent⟩
    · rw [hconfirm]
      exact .inr ⟨m', c', hexecute, hcurrent⟩

/-- A question whether the stage has changed brings it up to date, if it has been computed at all. -/
theorem changedSince_cases (hhonest : s.Honest) (hexact : s.Exact good before) (hdated : c.Dated good H now)
    (h : s.Holds before holds H asked now c) (revision : Nat) :
    (s.changedSince now revision c = none ∧ s.fresh before c.source = none) ∨
      s.changedSince now revision c = some (.changed, c) ∨
      ∃ m c' reports, s.changedSince now revision c = some (.since revision m.changedAt reports, c') ∧
        s.Current before holds forget' H asked now c m c' := by
  unfold changedSince
  cases hmemo : s.memo? c with
  | none => exact .inr (.inl rfl)
  | some memo =>
    by_cases hverified : memo.verifiedAt = now
    · exact .inr (.inr ⟨memo, c, memo.earlier, if_pos hverified, current_self hbefore h hmemo hverified⟩)
    simp only [if_neg hverified]
    rcases confirm_or_execute hbefore hplaced hhonest hexact hdated h hmemo with
      ⟨hnone, hconfirm | ⟨c₁, hconfirm, hexecute⟩⟩ | ⟨m', c', hcurrent, hconfirm | ⟨c₁, hconfirm, hexecute⟩⟩
    · rw [hconfirm]
      exact .inl ⟨rfl, hnone⟩
    · rw [hconfirm]
      simp only [Option.bind_eq_bind, Option.bind_some]
      rw [hexecute]
      exact .inl ⟨rfl, hnone⟩
    · rw [hconfirm]
      exact .inr (.inr ⟨m', c', m'.earlier, rfl, hcurrent⟩)
    · rw [hconfirm]
      simp only [Option.bind_eq_bind, Option.bind_some]
      rw [hexecute]
      exact .inr (.inr ⟨m', c', m'.reports, rfl, hcurrent⟩)

/-- **A stage recalls what it has come to**, if the stages before it do. -/
theorem recalls (hhonest : s.Honest) (hexact : s.Exact good before) :
    s.link.Recalls good (s.fresh before) (s.Holds before holds) forget' where
  mono h hsub := h.mono hbefore hsub
  join h h' := h.join hbefore h'
  later h hH hnow := h.later hbefore hH hnow
  refresh {H asked now c} hdated h := by
    rcases refresh_cases hbefore hplaced hhonest hexact hdated h with
      ⟨hrefresh, hnone⟩ | ⟨m, c', hrefresh, hcurrent⟩
    · show Refreshed _ _ _ _ _ _ _ (s.refresh now c)
      rw [hrefresh]
      exact .failed hnone
    · show Refreshed _ _ _ _ _ _ _ (s.refresh now c)
      rw [hrefresh]
      exact hcurrent.refreshed hdated
  changedSince {H asked now revision c} hdated h hrevision := by
    rcases changedSince_cases hbefore hplaced hhonest hexact hdated h revision with
      ⟨hchanged, hnone⟩ | hchanged | ⟨m, c', reports, hchanged, hcurrent⟩
    · show Answered _ _ _ _ _ _ _ _ (s.changedSince now revision c)
      rw [hchanged]
      exact .failed hnone
    · show Answered _ _ _ _ _ _ _ _ (s.changedSince now revision c)
      rw [hchanged]
      exact .changed h rfl
    · show Answered _ _ _ _ _ _ _ _ (s.changedSince now revision c)
      rw [hchanged]
      exact hcurrent.answered hdated hrevision (hcurrent.state.mono hbefore (List.subset_cons_self _ _)) reports
  diagnostics {H asked now c o} hdated h hnow ho := by
    -- the memo has the outcome of this revision, and the stages before are up to date as well
    rcases h.current hdated hnow with ⟨m, o', hmemo, -, ho', hrepeats⟩
    cases ho.symm.trans ho'
    rcases Option.bind_eq_some_iff.1 ho with ⟨b, hb, hcompute⟩
    rcases Option.map_eq_some_iff.1 hcompute with ⟨o₁, -, rfl⟩
    have hbound : now ∈ s.verified c ++ asked := List.mem_append_right _ hnow
    have hearlier := hbefore.diagnostics hdated h.earlier hbound hb
    show (s.diagnostics c).Sublist _
    rw [diagnostics, hmemo]
    simp only
    rw [hrepeats.diagnostics_eq]
    refine (List.Sublist.refl _).append ?_
    split
    · exact hearlier
    · exact List.nil_sublist _

end Steps

end Stage

/-! ## Stages that are computed for the first time -/

/-- What becomes of a cell when a stage is brought up to date that nothing is remembered about, nor about those
before it: all diagnostics are told. -/
inductive Told {α : Type} (fresh : Fresh α) (forget : Cell → Cell) (L : Link α) (c : Cell) :
    Option (Memo α × Cell) → Prop where
  | failed : fresh c.source = none → Told fresh forget L c none
  | done {m : Memo α} {c' : Cell} {o : Outcome α × List Diagnostic} : fresh c.source = some o →
    m.outcome = o.1 → m.reports = !o.2.isEmpty → L.diagnostics c' = o.2 → forget c' = forget c →
    Told fresh forget L c (some (m, c'))

/-- A link that is brought up to date for the first time tells all. -/
def Link.Tells {α : Type} (fresh : Fresh α) (forget : Cell → Cell) (L : Link α) : Prop :=
  ∀ now c, forget c = c → Told fresh forget L c (L.refresh now c)

theorem Link.tells_start : Link.start.Tells (fun _ => some (.skipped, [])) id :=
  fun _ _ _ => .done rfl rfl rfl rfl rfl

namespace Stage

variable {α β : Type} {s : Stage α β} {before : Fresh α} {holds : Condition} {forget forget' : Cell → Cell}
  {c : Cell}

/-- What happens if the stage is computed for the first time. -/
theorem first_cases (hbefore : s.before.Tells before forget) (hplaced : s.Placed holds forget forget')
    (hc : forget' c = c) (now : Nat) :
    (s.refresh now c = none ∧ s.fresh before c.source = none) ∨
      ∃ m input c₁ b o, s.refresh now c = some (m, s.remember m c₁) ∧ s.before.refresh now c = some (input, c₁) ∧
        before c.source = some b ∧ s.compute c.source b.1.value = some o ∧ m.outcome = o ∧ m.verifiedAt = now ∧
        m.earlier = !b.2.isEmpty ∧ s.before.diagnostics c₁ = b.2 ∧ forget c₁ = forget c := by
  have hmemo : s.memo? c = none := by
    rw [← hc]
    exact hplaced.memo?_forget' c
  have hblank : forget c = c := by
    rw [← hc]
    exact hplaced.forget_forget' c
  have htold := hbefore now c hblank
  rw [refresh, hmemo]
  simp only [execute]
  generalize s.before.refresh now c = result at htold ⊢
  cases htold with
  | failed hnone => exact .inl ⟨rfl, fresh_eq_none_of_before hnone⟩
  | @done input c₁ b hb houtcome hreports hdiagnostics hforget =>
    simp only [Option.bind_eq_bind, Option.bind_some]
    rw [hplaced.source_eq hforget, houtcome]
    have hfresh := fresh_of_before (s := s) hb
    cases hcompute : s.compute c.source b.1.value with
    | none =>
      rw [hcompute] at hfresh
      exact .inl ⟨rfl, hfresh⟩
    | some o => exact .inr ⟨_, input, c₁, b, o, rfl, rfl, hb, hcompute, rfl, rfl, hreports, hdiagnostics, hforget⟩

/-- **A stage that is computed for the first time tells all diagnostics**, if those before it do. -/
theorem tells (hbefore : s.before.Tells before forget) (hplaced : s.Placed holds forget forget') :
    s.link.Tells (s.fresh before) forget' := by
  intro now c hc
  show Told _ _ _ _ (s.refresh now c)
  rcases first_cases hbefore hplaced hc now with ⟨hrefresh, hnone⟩ |
    ⟨m, input, c₁, b, o, hrefresh, -, hb, hcompute, houtcome, -, hearlier, hdiagnostics, hforget⟩
  · rw [hrefresh]
    exact .failed hnone
  · rw [hrefresh]
    have hfresh : s.fresh before c.source = some (o, o.diagnostics ++ b.2) := by
      rw [fresh_of_before hb, hcompute]
      rfl
    refine .done hfresh houtcome ?_ ?_ ?_
    · rw [Memo.reports, houtcome, hearlier]
      cases o.diagnostics with
      | nil => rfl
      | cons => rfl
    · show s.diagnostics (s.remember m c₁) = _
      rw [diagnostics, hplaced.memo?_remember]
      simp only
      rw [houtcome, hplaced.diagnostics_remember, hdiagnostics, hearlier]
      cases b.2 with
      | nil => rfl
      | cons => rfl
    · rw [hplaced.forget_remember, hplaced.forget'_eq hforget]

end Stage

end Multistage
