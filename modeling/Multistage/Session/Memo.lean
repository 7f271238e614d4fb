import Multistage.Fragment.Same
import Multistage.Pipeline.Report

/-!
# Remembered stages

In a session the outcome of every stage is remembered and computed again only if something it depends on
has changed. Time is counted in revisions; every edit of a source starts a new one.

A `Memo` holds an outcome, the revision in which its value last changed and the last revision in which it
was known to be current. If a stage is computed again and its value is the same as before, the value
counts as unchanged, and the stages after it stay as they are.

`Memo.earlier` says whether the stages before have diagnostics, as far as this stage was told when it was
last brought up to date. A stage that is merely confirmed hears from the one before it only about the
stages before that one: a confirmed stage does not mention its own diagnostics.

Main definitions: `Stage`, one stage after a `Link`, which is a stage with all that stands before it; and the
stages `Stage.elaborate` to `Stage.fillHoles` and `Stage.evaluate`.
-/

namespace Multistage

/-- The remembered outcome of a stage. -/
structure Memo (α : Type) where
  outcome : Outcome α
  /-- the revision of the last change of the value -/
  changedAt : Nat
  /-- the last revision in which the value is known to be current -/
  verifiedAt : Nat
  /-- whether the stages before are known to have diagnostics -/
  earlier : Bool
  deriving Inhabited, Repr

/-- Whether a stage has something to report, itself or through the stages before it. -/
def Memo.reports {α : Type} (m : Memo α) : Bool := !m.outcome.diagnostics.isEmpty || m.earlier

/-- A memo whose output has been shown already. -/
def Memo.silenced {α : Type} (m : Memo α) : Memo α := { m with outcome.printed := "" }

/-- A source with all that is remembered about it. -/
structure Cell where
  source : Source
  /-- the revision of the last edit of the program -/
  programAt : Nat
  /-- the revision of the last change of the mode -/
  modeAt : Nat
  elaborated : Option (Memo Elaboration) := none
  explicit : Option (Memo Program) := none
  judged : Option (Memo Elaboration) := none
  blueprint : Option (Memo Blueprint) := none
  variants : Option (Memo VariantTable) := none
  result : Option (Memo String) := none
  deriving Inhabited, Repr

/-- What a stage answers when it is asked whether it has changed since a revision. -/
inductive Change where
  | changed
  /-- nothing has changed; `reports` says whether the stage mentions diagnostics -/
  | unchanged (reports : Bool)
  deriving DecidableEq, Inhabited, Repr

/-- The answer for a value that last changed in `changedAt`. -/
def Change.since (revision changedAt : Nat) (reports : Bool) : Change :=
  if changedAt > revision then .changed else .unchanged reports

/-- A stage with all that stands before it. Its functions are given the current revision; they have no
result if one of the stages has no outcome. -/
structure Link (α : Type) where
  /-- bring the stage up to date -/
  refresh : (now : Nat) → Cell → Option (Memo α × Cell)
  /-- whether the value has changed since a revision -/
  changedSince : (now revision : Nat) → Cell → Option (Change × Cell)
  /-- the diagnostics of this stage, then those of the stages before -/
  diagnostics : Cell → List Diagnostic

/-- What stands before the first stage. -/
def Link.start : Link Unit where
  refresh now c := some (⟨.skipped, 0, now, false⟩, c)
  changedSince _ _ c := some (.unchanged false, c)
  diagnostics _ := []

/-- One stage: how it is computed from the stage before, and where its memo is kept. -/
structure Stage (α β : Type) where
  before : Link α
  compute : Source → Option α → Option (Outcome β)
  memo? : Cell → Option (Memo β)
  remember : Memo β → Cell → Cell
  /-- whether a new value counts as unchanged -/
  same : Option β → Option β → Bool

namespace Stage

variable {α β : Type}

/-- The last change of the parts of a source that an outcome depends on. -/
def inputsChangedAt (c : Cell) (o : Outcome β) : Nat :=
  max (if o.readsMode then c.modeAt else 0) (if o.readsProgram then c.programAt else 0)

/-- Compute the stage. -/
def execute (s : Stage α β) (now : Nat) (c : Cell) : Option (Memo β × Cell) := do
  let (input, c) ← s.before.refresh now c
  let outcome ← s.compute c.source input.outcome.value
  let changedAt := max input.changedAt (inputsChangedAt c outcome)
  let changedAt := match s.memo? c with
    | some old => if s.same old.outcome.value outcome.value then old.changedAt else changedAt
    | none => changedAt
  let memo : Memo β := ⟨outcome, changedAt, now, input.reports⟩
  return (memo, s.remember memo c)

/-- Confirm a memo, if nothing that its outcome depends on has changed. -/
def confirm (s : Stage α β) (now : Nat) (memo : Memo β) (c : Cell) :
    Option (Option (Memo β) × Cell) := do
  let (change, c) ← s.before.changedSince now memo.verifiedAt c
  match change with
  | .changed => return (none, c)
  | .unchanged reports =>
    if inputsChangedAt c memo.outcome > memo.verifiedAt then return (none, c)
    let memo := { memo with verifiedAt := now, earlier := reports }
    return (some memo, s.remember memo c)

/-- Bring the stage up to date: by its memo if that is current or can be confirmed, else by computing it. -/
def refresh (s : Stage α β) (now : Nat) (c : Cell) : Option (Memo β × Cell) := do
  match s.memo? c with
  | none => s.execute now c
  | some memo =>
    if memo.verifiedAt = now then return (memo, c)
    match ← s.confirm now memo c with
    | (some memo, c) => return (memo, c)
    | (none, c) => s.execute now c

/-- Whether the value has changed since a revision. -/
def changedSince (s : Stage α β) (now revision : Nat) (c : Cell) : Option (Change × Cell) := do
  match s.memo? c with
  | none => return (.changed, c)
  | some memo =>
    if memo.verifiedAt = now then return (.since revision memo.changedAt memo.earlier, c)
    match ← s.confirm now memo c with
    | (some memo, c) => return (.since revision memo.changedAt memo.earlier, c)
    | (none, c) =>
      let (memo, c) ← s.execute now c
      return (.since revision memo.changedAt memo.reports, c)

/-- The diagnostics of this stage, then those of the stages before if there are known to be any. -/
def diagnostics (s : Stage α β) (c : Cell) : List Diagnostic :=
  match s.memo? c with
  | none => []
  | some memo => memo.outcome.diagnostics ++ if memo.earlier then s.before.diagnostics c else []

/-- The stage as something that others can follow. -/
def link (s : Stage α β) : Link β := ⟨s.refresh, s.changedSince, s.diagnostics⟩

end Stage

/-! ## The stages of the pipeline -/

/-- Two values, or none twice. -/
def sameOption {α : Type} (same : α → α → Bool) : Option α → Option α → Bool
  | none, none => true
  | some a, some b => same a b
  | _, _ => false

/-- Equal terms with equal judgements. -/
def Elaboration.same (a b : Elaboration) : Bool :=
  a.term.same b.term && a.table.entries = b.table.entries

/-- Equal terms with equal supplies. -/
def Program.same (a b : Program) : Bool := a.root.same b.root && a.supply = b.supply

namespace Stage

/-- The judgements of the program as it was written. -/
def elaborate : Stage Unit Elaboration where
  before := .start
  compute s _ := s.elaborate
  memo? := Cell.elaborated
  remember m c := { c with elaborated := some m }
  same := sameOption Elaboration.same

def makeExplicit : Stage Elaboration Program where
  before := elaborate.link
  compute := Source.makeExplicit
  memo? := Cell.explicit
  remember m c := { c with explicit := some m }
  same := sameOption Program.same

/-- The judgements of the explicit program. -/
def judgeExplicit : Stage Program Elaboration where
  before := makeExplicit.link
  compute := Source.judgeExplicit
  memo? := Cell.judged
  remember m c := { c with judged := some m }
  same := sameOption Elaboration.same

/-- The units of the program. -/
def split : Stage Elaboration Blueprint where
  before := judgeExplicit.link
  compute := Source.split
  memo? := Cell.blueprint
  remember m c := { c with blueprint := some m }
  same := sameOption Blueprint.same

/-- The variants of the fragments. No stage depends on them. -/
def fillHoles : Stage Blueprint VariantTable where
  before := split.link
  compute := Source.fillHoles
  memo? := Cell.variants
  remember m c := { c with variants := some m }
  same _ _ := false

/-- The result of evaluation. No stage depends on it. -/
def evaluate : Stage Program String where
  before := makeExplicit.link
  compute := Source.evaluate
  memo? := Cell.result
  remember m c := { c with result := some m }
  same _ _ := false

end Stage

end Multistage
