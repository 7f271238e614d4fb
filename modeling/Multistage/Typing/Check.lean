import Multistage.Table
import Multistage.Term.Dispatch
import Multistage.Typing.Rules

/-!
# Checking and elaborating

The checker walks a term in evaluation order and gives each node a `Judgement`: its type, and the scope
that the nodes after it see. Its rules stand in a table, `Prelude.checker`, in which the mode may replace
some; the walk is a visit through the table. It is written once, for any monad that can raise faults and
for both ways of counting stages and levels, with something that is done around every node.

* `Prelude.checkWith` runs it for the judgement alone;
* `Prelude.elaborateWith` observes it, and keeps the judgement of every node in a table.

`Prelude.checkIn` and `Prelude.elaborate` count without a bound, `Prelude.checkIn32` and
`Prelude.elaborate32` in words. Sources are checked in words; wherever these suffice, both agree
(`elaborate32_eq`), so that what is proved of the walk without a bound holds of it too.
-/

namespace Multistage

/-- The type of a node, and the scope after it. -/
structure Judgement where
  type : Ty
  scope : Scope Binding
  deriving DecidableEq, Inhabited, Repr

/-- Whether a construct has a rule, and the same one in all modes. -/
def Tag.isCommon : Tag → Bool
  | .binary | .held => false
  | _ => true

namespace Prelude

section Walk

variable {ε : Type} {m : Type → Type} [Monad m] [MonadLiftT (Except Fault) (Except ε)]
variable [MonadLiftT (Except Fault) m] [MonadLiftT (Except ε) m] (p : Prelude) (count : Counting ε)

/-! ## The table of rules -/

/-- The types of arguments, all judged in the same context. -/
def typesOf : List (Context → m Judgement) → Context → m (List Ty)
  | [], _ => pure []
  | visit :: rest, c => do
    let j ← visit c
    let types ← typesOf rest c
    return j.type :: types

/-- There is no rule for a node. -/
def misplaced : Handler m Context Judgement :=
  fun t _ _ => (Fault.typeMismatch t.id (.misplaced t.tag)).raise

/-- Arithmetic by a rule for the types of both operands. -/
def arithmetic (rule : NodeId → BinaryOp → Ty → Ty → Except Fault Ty) : Handler m Context Judgement
  | .binary s op _ _, c, [lhs, rhs] => do
    let first ← lhs c
    let second ← rhs (c.withScope first.scope)
    let type ← rule s.id op first.type second.type
    return ⟨type, c.scope⟩
  | t, c, children => misplaced t c children

/-- The rules that are the same in all modes. -/
def commonRule : Handler m Context Judgement
  | .literal _ value, c, _ => pure ⟨value.type, c.scope⟩
  | .seq .., c, [lhs, rhs] => do
    let first ← lhs c
    rhs (c.withScope first.scope)
  | .define _ name _, c, [value] => do
    let j ← value c
    return ⟨j.type, c.bind j.scope name j.type⟩
  | .assign s name _, c, [value] => do
    let j ← value c
    p.assignRule c s.id name j.type
    return j
  | .lookup s name, c, _ => do
    let type ← p.lookupWith count c s.id name
    return ⟨type, c.scope⟩
  | .unary s _ _, c, [operand] => do
    let j ← operand c
    let type ← unaryRule s.id j.type
    return ⟨type, c.scope⟩
  | .quote .., c, [body] => do
    let inside ← count.context c.quoted
    let j ← body inside
    let type ← count.type (j.type.shift 1)
    return ⟨type, c.scope⟩
  | .escape s kind _, c, [body] =>
    if c.level = 0 then (Fault.topLevelEscape s.id).raise
    else do
      let outside ← count.context c.escaped
      let j ← body outside
      let type ← escapeRule s.id kind j.type
      return ⟨type, c.scope⟩
  | .run s _, c, [body] => do
    let j ← body c
    let type ← runRule s.id j.type
    return ⟨type, j.scope⟩
  | .lambda s params _, c, [body] => do
    let params ← p.paramsWith count s.id params
    let j ← body (c.withScope (c.bindAll params))
    return ⟨.function (params.map (·.2)) j.type, c.scope⟩
  | .call s _ _, c, callee :: args => do
    let f ← callee c
    let args ← typesOf args c
    let type ← callRule s.id f.type args
    return ⟨type, c.scope⟩
  | .host s name written, c, _ => do
    let type ← p.resolveWith count.type s.id written
    return ⟨type, c.bind c.scope name type⟩
  | t, c, children => misplaced t c children

/-- The rules of general programs. Held references are no part of a program that is checked. -/
def generalRules : Handlers m Context Judgement
  | .held => none
  | .binary => some (arithmetic fun node _ => numericRule node)
  | _ => some (p.commonRule count)

/-- The rules that are different in shaders. -/
def shaderRules : Handlers m Context Judgement
  | .binary => some (arithmetic shaderRule)
  | _ => none

/-- The rules of the checker. -/
def checker : Dispatch m Context Judgement :=
  let general := { handlers := p.generalRules count, fallback := misplaced }
  match p.mode with
  | .general => general
  | .shader => general.override shaderRules

/-! ## The walk -/

variable (around : Term → Context → m Judgement → m Judgement)

/-- Judge a node and all nodes below it. -/
def judge : Term → Context → m Judgement := { p.checker count with around }.visit

/-- The types of arguments, all judged in the same context. -/
def judgeAll (ts : List Term) (c : Context) : m (List Ty) := typesOf (ts.map (p.judge count around)) c

end Walk

section Equations

variable {ε : Type} {m : Type → Type} [Monad m] [MonadLiftT (Except Fault) (Except ε)]
variable [MonadLiftT (Except Fault) m] [MonadLiftT (Except ε) m] {p : Prelude} {count : Counting ε}
variable {around : Term → Context → m Judgement → m Judgement} {c : Context} {s : Site}

/-- Where no mode replaces the rule of a construct, the walk applies the common one. -/
theorem judge_eq_commonRule {t : Term} (h : t.tag.isCommon = true) : p.judge count around t c =
    around t c (p.commonRule count t c (t.children.map (p.judge count around))) := by
  rw [judge, Dispatch.visit_eq]
  rcases p with ⟨mode, intrinsics, types⟩
  cases t with
  | binary | held => cases h
  | _ => cases mode <;> rfl

theorem judge_literal (value : Literal) : p.judge count around (.literal s value) c =
    around (.literal s value) c (pure ⟨value.type, c.scope⟩) :=
  judge_eq_commonRule rfl

theorem judge_seq (lhs rhs : Term) : p.judge count around (.seq s lhs rhs) c =
    around (.seq s lhs rhs) c (do
      let first ← p.judge count around lhs c
      p.judge count around rhs (c.withScope first.scope)) :=
  judge_eq_commonRule rfl

theorem judge_define (name : String) (value : Term) : p.judge count around (.define s name value) c =
    around (.define s name value) c (do
      let j ← p.judge count around value c
      return ⟨j.type, c.bind j.scope name j.type⟩) :=
  judge_eq_commonRule rfl

/-- The value is judged first, and the type of the assignment is that of the value. -/
theorem judge_assign (name : String) (value : Term) : p.judge count around (.assign s name value) c =
    around (.assign s name value) c (do
      let j ← p.judge count around value c
      p.assignRule c s.id name j.type
      return j) :=
  judge_eq_commonRule rfl

theorem judge_lookup (name : String) : p.judge count around (.lookup s name) c =
    around (.lookup s name) c (do
      let type ← p.lookupWith count c s.id name
      return ⟨type, c.scope⟩) :=
  judge_eq_commonRule rfl

theorem judge_unary (op : UnaryOp) (operand : Term) : p.judge count around (.unary s op operand) c =
    around (.unary s op operand) c (do
      let j ← p.judge count around operand c
      let type ← unaryRule s.id j.type
      return ⟨type, c.scope⟩) :=
  judge_eq_commonRule rfl

/-- Arithmetic is the one construct with a rule of its own in each mode. -/
theorem judge_binary (op : BinaryOp) (lhs rhs : Term) : p.judge count around (.binary s op lhs rhs) c =
    around (.binary s op lhs rhs) c (do
      let first ← p.judge count around lhs c
      let second ← p.judge count around rhs (c.withScope first.scope)
      let type ← binaryRule p.mode s.id op first.type second.type
      return ⟨type, c.scope⟩) := by
  rw [judge, Dispatch.visit_eq]
  rcases p with ⟨mode, intrinsics, types⟩
  cases mode <;> rfl

/-- Inside a quote levels are one up, and the type gets one stage more. -/
theorem judge_quote (label : Option String) (snippet : Bool) (body : Term) :
    p.judge count around (.quote s label snippet body) c =
    around (.quote s label snippet body) c (do
      let inside ← count.context c.quoted
      let j ← p.judge count around body inside
      let type ← count.type (j.type.shift 1)
      return ⟨type, c.scope⟩) :=
  judge_eq_commonRule rfl

/-- An escape needs a quote around it; its body is judged outside that quote. -/
theorem judge_escape (kind : EscapeKind) (body : Term) : p.judge count around (.escape s kind body) c =
    around (.escape s kind body) c (if c.level = 0 then (Fault.topLevelEscape s.id).raise else do
      let outside ← count.context c.escaped
      let j ← p.judge count around body outside
      let type ← escapeRule s.id kind j.type
      return ⟨type, c.scope⟩) :=
  judge_eq_commonRule rfl

theorem judge_run (body : Term) : p.judge count around (.run s body) c =
    around (.run s body) c (do
      let j ← p.judge count around body c
      let type ← runRule s.id j.type
      return ⟨type, j.scope⟩) :=
  judge_eq_commonRule rfl

/-- The body is judged with the parameters in scope, which end with it. -/
theorem judge_lambda (params : List Param) (body : Term) : p.judge count around (.lambda s params body) c =
    around (.lambda s params body) c (do
      let types ← p.paramsWith count s.id params
      let j ← p.judge count around body (c.withScope (c.bindAll types))
      return ⟨.function (types.map (·.2)) j.type, c.scope⟩) :=
  judge_eq_commonRule rfl

/-- Callee and arguments are judged in the same scope. -/
theorem judge_call (callee : Term) (args : List Term) : p.judge count around (.call s callee args) c =
    around (.call s callee args) c (do
      let f ← p.judge count around callee c
      let types ← p.judgeAll count around args c
      let type ← callRule s.id f.type types
      return ⟨type, c.scope⟩) :=
  judge_eq_commonRule rfl

theorem judge_host (name : String) (written : TypeExpr) : p.judge count around (.host s name written) c =
    around (.host s name written) c (do
      let type ← p.resolveWith count.type s.id written
      return ⟨type, c.bind c.scope name type⟩) :=
  judge_eq_commonRule rfl

theorem judge_held (index : Nat) : p.judge count around (.held s index) c =
    around (.held s index) c (Fault.typeMismatch s.id (.misplaced .held)).raise := by
  rw [judge, Dispatch.visit_eq]
  rcases p with ⟨mode, intrinsics, types⟩
  cases mode <;> rfl

theorem judgeAll_cons (t : Term) (rest : List Term) : p.judgeAll count around (t :: rest) c = (do
    let j ← p.judge count around t c
    let types ← p.judgeAll count around rest c
    return j.type :: types) := rfl

end Equations

/-! ## Counting without a bound -/

section Unbounded

variable {m : Type → Type} [Monad m] [MonadLiftT (Except Fault) m] {p : Prelude}
variable {around : Term → Context → m Judgement → m Judgement} {c : Context} {s : Site}

theorem judge_lookup_unbounded (name : String) : p.judge .unbounded around (.lookup s name) c =
    around (.lookup s name) c (do
      let type ← p.lookupRule c s.id name
      return ⟨type, c.scope⟩) :=
  judge_lookup name

theorem judge_lambda_unbounded (params : List Param) (body : Term) :
    p.judge .unbounded around (.lambda s params body) c =
    around (.lambda s params body) c (do
      let types ← p.paramRule s.id params
      let j ← p.judge .unbounded around body (c.withScope (c.bindAll types))
      return ⟨.function (types.map (·.2)) j.type, c.scope⟩) :=
  judge_lambda params body

theorem judge_host_unbounded (name : String) (written : TypeExpr) :
    p.judge .unbounded around (.host s name written) c =
    around (.host s name written) c (do
      let type ← p.resolve s.id written
      return ⟨type, c.bind c.scope name type⟩) :=
  judge_host name written

variable [LawfulMonad m] [LawfulMonadLiftT (Except Fault) m]

theorem judge_quote_unbounded (label : Option String) (snippet : Bool) (body : Term) :
    p.judge .unbounded around (.quote s label snippet body) c =
    around (.quote s label snippet body) c (do
      let j ← p.judge .unbounded around body c.quoted
      return ⟨j.type.shift 1, c.scope⟩) := by
  have hpure : ∀ {α : Type} (a : α), (liftM (Except.ok a : Except Fault α) : m α) = pure a := monadLift_pure
  simp only [judge_quote, Counting.unbounded, hpure, pure_bind]

theorem judge_escape_unbounded (kind : EscapeKind) (body : Term) :
    p.judge .unbounded around (.escape s kind body) c =
    around (.escape s kind body) c (if c.level = 0 then (Fault.topLevelEscape s.id).raise else do
      let j ← p.judge .unbounded around body c.escaped
      let type ← escapeRule s.id kind j.type
      return ⟨type, c.scope⟩) := by
  have hpure : ∀ {α : Type} (a : α), (liftM (Except.ok a : Except Fault α) : m α) = pure a := monadLift_pure
  simp only [judge_escape, Counting.unbounded, hpure, pure_bind]

end Unbounded

/-! ## Judging alone -/

section Check

variable {ε : Type} [MonadLiftT (Except Fault) (Except ε)]

/-- Judge a term in a context. -/
def checkWith (count : Counting ε) (p : Prelude) (c : Context) (t : Term) : Except ε Judgement :=
  p.judge count (fun _ _ judgement => judgement) t c

end Check

/-- Judge a term in a context, at any level. -/
def checkIn (p : Prelude) (c : Context) (t : Term) : Except Fault Judgement :=
  p.checkWith .unbounded c t

/-- Judge a term in a context, with levels and stages in words. -/
def checkIn32 (p : Prelude) (c : Context) (t : Term) : Except Obstacle Judgement :=
  p.checkWith .word c t

/-- The type of a whole program. -/
def check (p : Prelude) (t : Term) : Except Fault Ty := do
  let j ← p.checkIn {} t
  return j.type

end Prelude

/-! ## Elaborating -/

/-- The judgements of nodes. -/
abbrev TypeTable := Table Judgement

/-- A term with the judgements of its nodes. -/
structure Elaboration where
  term : Term
  table : TypeTable
  deriving Inhabited, Repr

namespace Elaboration

/-- The type of the whole term. -/
def rootType? (e : Elaboration) : Option Ty := (e.table.get? e.term.id).map (·.type)

end Elaboration

namespace Prelude

/-- The judgements of all nodes of a program. Where nodes share an identity the last one judged counts. -/
def elaborateWith {ε : Type} [MonadLiftT (Except Fault) (Except ε)] (count : Counting ε) (p : Prelude)
    (t : Term) : Except ε Elaboration := do
  let record (t : Term) (_ : Context) (j : Judgement) : StateT TypeTable (Except ε) Unit :=
    modify (·.insert t.id j)
  let (_, table) ← (((p.checker count).observe record).visit t {}).run {}
  return ⟨t, table⟩

/-- The judgements of all nodes of a program, at any level. -/
def elaborate (p : Prelude) (t : Term) : Except Fault Elaboration := p.elaborateWith .unbounded t

/-- The judgements of all nodes of a program, with levels and stages in words. -/
def elaborate32 (p : Prelude) (t : Term) : Except Obstacle Elaboration := p.elaborateWith .word t

end Prelude

end Multistage
