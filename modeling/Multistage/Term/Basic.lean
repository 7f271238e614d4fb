import Multistage.Node

/-!
# Terms

The syntax of the staged language. A quote delays its body by one stage, an escape inside a quote goes
back one stage, and `run` executes the code that a quote has produced.

Main definitions:

* `Term`, one constructor a construct, each with its `Site` (identity and source position);
* `Term.children`, the direct subterms in evaluation order, and `Term.withChildren`, which puts others
  in their place;
* `Term.fold`, recursion over a term by a function of the node and the results for its children.
-/

namespace Multistage

/-- The value of a literal. -/
inductive Literal where
  | int (value : Int64)
  | float (value : Float)
  | string (value : String)
  deriving DecidableEq, Inhabited, Repr

/-- Operators with one operand. -/
inductive UnaryOp where
  | neg
  deriving DecidableEq, Inhabited, Repr

/-- Operators with two operands. -/
inductive BinaryOp where
  | add
  | sub
  | mul
  | div
  deriving DecidableEq, Inhabited, Repr

/-- The operator as it is written. -/
def BinaryOp.symbol : BinaryOp → String
  | .add => "+"
  | .sub => "-"
  | .mul => "*"
  | .div => "/"

/-- What an escape does with the value of its body. -/
inductive EscapeKind where
  /-- inline a piece of code -/
  | splice
  /-- carry a value over to the later stage -/
  | persist
  /-- leave a hole for any of several pieces of code -/
  | snippet
  deriving DecidableEq, Inhabited, Repr

/-- A type as it is written in a program. -/
inductive TypeExpr where
  | named (name : String)
  | code (inner : TypeExpr)
  | arrow (params : List TypeExpr) (result : TypeExpr)
  deriving Inhabited, Repr

namespace TypeExpr

mutual
/-- Written types can be told apart. -/
def decEq : (a b : TypeExpr) → Decidable (a = b)
  | .named m, .named n =>
    if h : m = n then isTrue (by rw [h]) else isFalse fun e => h (by injection e)
  | .code a, .code b =>
    match decEq a b with
    | isTrue h => isTrue (by rw [h])
    | isFalse h => isFalse fun e => h (by injection e)
  | .arrow ps r, .arrow qs s =>
    match decEqAll ps qs, decEq r s with
    | isTrue hp, isTrue hr => isTrue (by rw [hp, hr])
    | isFalse h, _ => isFalse fun e => h (by injection e)
    | _, isFalse h => isFalse fun e => h (by injection e)
  | .named _, .code _ | .named _, .arrow .. | .code _, .named _ | .code _, .arrow ..
  | .arrow .., .named _ | .arrow .., .code _ => isFalse nofun

/-- Lists of written types can be told apart. -/
def decEqAll : (as bs : List TypeExpr) → Decidable (as = bs)
  | [], [] => isTrue rfl
  | a :: as, b :: bs =>
    match decEq a b, decEqAll as bs with
    | isTrue ha, isTrue hs => isTrue (by rw [ha, hs])
    | isFalse h, _ => isFalse fun e => h (by injection e)
    | _, isFalse h => isFalse fun e => h (by injection e)
  | [], _ :: _ | _ :: _, [] => isFalse nofun
end

instance : DecidableEq TypeExpr := decEq

end TypeExpr

/-- A parameter of a function. -/
structure Param where
  id : NodeId
  name : String
  type : Option TypeExpr := none
  deriving DecidableEq, Inhabited, Repr

/-- The identity and the source position of a node. -/
structure Site where
  id : NodeId
  span : Span := {}
  deriving DecidableEq, Inhabited, Repr

/-- A term of the staged language. -/
inductive Term where
  | literal (site : Site) (value : Literal)
  /-- evaluate `lhs` for its effect and its bindings, then `rhs` -/
  | seq (site : Site) (lhs rhs : Term)
  /-- bind `name` for the rest of the sequence -/
  | define (site : Site) (name : String) (value : Term)
  | assign (site : Site) (name : String) (value : Term)
  | lookup (site : Site) (name : String)
  | unary (site : Site) (op : UnaryOp) (operand : Term)
  | binary (site : Site) (op : BinaryOp) (lhs rhs : Term)
  /-- code for the next stage; a `snippet` may fill the holes of other quotes -/
  | quote (site : Site) (label : Option String) (snippet : Bool) (body : Term)
  | escape (site : Site) (kind : EscapeKind) (body : Term)
  | run (site : Site) (body : Term)
  | lambda (site : Site) (params : List Param) (body : Term)
  | call (site : Site) (callee : Term) (args : List Term)
  /-- declare a name that the host provides -/
  | host (site : Site) (name : String) (type : TypeExpr)
  /-- a value that was carried over by a persist escape; only evaluation produces these -/
  | held (site : Site) (index : Nat)
  deriving Inhabited, Repr

/-- The constructs of the language. -/
inductive Tag where
  | literal | seq | define | assign | lookup | unary | binary | quote | escape | run | lambda | call
  | host | held
  deriving DecidableEq, Inhabited, Repr

namespace Tag

/-- All constructs, in their usual order. -/
def all : List Tag :=
  [.literal, .seq, .define, .assign, .lookup, .unary, .binary, .quote, .escape, .run, .lambda, .call,
    .host, .held]

/-- The name of a construct in messages. -/
def text : Tag → String
  | .literal => "Literal"
  | .seq => "Seq"
  | .define => "Let"
  | .assign => "Assign"
  | .lookup => "Lookup"
  | .unary => "Unary"
  | .binary => "Binary"
  | .quote => "Quote"
  | .escape => "Escape"
  | .run => "Run"
  | .lambda => "Fun"
  | .call => "Call"
  | .host => "Extern"
  | .held => "Persist"

end Tag

namespace Term

/-! ## The node of a term -/

/-- The construct of a term. -/
def tag : Term → Tag
  | .literal .. => .literal
  | .seq .. => .seq
  | .define .. => .define
  | .assign .. => .assign
  | .lookup .. => .lookup
  | .unary .. => .unary
  | .binary .. => .binary
  | .quote .. => .quote
  | .escape .. => .escape
  | .run .. => .run
  | .lambda .. => .lambda
  | .call .. => .call
  | .host .. => .host
  | .held .. => .held

def site : Term → Site
  | .literal s _ | .seq s _ _ | .define s _ _ | .assign s _ _ | .lookup s _ | .unary s _ _
  | .binary s _ _ _ | .quote s _ _ _ | .escape s _ _ | .run s _ | .lambda s _ _ | .call s _ _
  | .host s _ _ | .held s _ => s

/-- The identity of a term. -/
def id (t : Term) : NodeId := t.site.id

/-- The source position of a term. -/
def span (t : Term) : Span := t.site.span

/-- The parameters of a function. -/
def params : Term → List Param
  | .lambda _ params _ => params
  | _ => []

/-! ## Children -/

/-- The direct subterms, in evaluation order. -/
def children : Term → List Term
  | .literal .. | .lookup .. | .host .. | .held .. => []
  | .define _ _ t | .assign _ _ t | .unary _ _ t | .quote _ _ _ t | .escape _ _ t | .run _ t
  | .lambda _ _ t => [t]
  | .seq _ l r | .binary _ _ l r => [l, r]
  | .call _ callee args => callee :: args

/-- The same node over other children. A list that does not fit leaves the term as it is. -/
def withChildren : Term → List Term → Term
  | .seq s _ _, [l, r] => .seq s l r
  | .define s name _, [t] => .define s name t
  | .assign s name _, [t] => .assign s name t
  | .unary s op _, [t] => .unary s op t
  | .binary s op _ _, [l, r] => .binary s op l r
  | .quote s label snippet _, [t] => .quote s label snippet t
  | .escape s kind _, [t] => .escape s kind t
  | .run s _, [t] => .run s t
  | .lambda s params _, [t] => .lambda s params t
  | .call s _ _, callee :: args => .call s callee args
  | t, _ => t

/-- Rebuild a node, replacing its children from left to right. -/
def mapChildrenM {m : Type → Type} [Monad m] (f : Term → m Term) : Term → m Term
  | .seq s l r => do
    let l ← f l
    let r ← f r
    return .seq s l r
  | .define s name t => do return .define s name (← f t)
  | .assign s name t => do return .assign s name (← f t)
  | .unary s op t => do return .unary s op (← f t)
  | .binary s op l r => do
    let l ← f l
    let r ← f r
    return .binary s op l r
  | .quote s label snippet t => do return .quote s label snippet (← f t)
  | .escape s kind t => do return .escape s kind (← f t)
  | .run s t => do return .run s (← f t)
  | .lambda s params t => do return .lambda s params (← f t)
  | .call s callee args => do
    let callee ← f callee
    let args ← args.mapM f
    return .call s callee args
  | t => pure t

/-- Rebuild a node, replacing its children. -/
def mapChildren (f : Term → Term) (t : Term) : Term := Id.run (t.mapChildrenM (pure ∘ f))

/-! ## Folds -/

section Fold

variable {β : Type _} (f : Term → List β → β)

mutual
/-- Combine the results for the children of each node by `f`, from the leaves up. -/
def fold : Term → β
  | .literal s value => f (.literal s value) []
  | .seq s l r => f (.seq s l r) [fold l, fold r]
  | .define s name t => f (.define s name t) [fold t]
  | .assign s name t => f (.assign s name t) [fold t]
  | .lookup s name => f (.lookup s name) []
  | .unary s op t => f (.unary s op t) [fold t]
  | .binary s op l r => f (.binary s op l r) [fold l, fold r]
  | .quote s label snippet t => f (.quote s label snippet t) [fold t]
  | .escape s kind t => f (.escape s kind t) [fold t]
  | .run s t => f (.run s t) [fold t]
  | .lambda s params t => f (.lambda s params t) [fold t]
  | .call s callee args => f (.call s callee args) (fold callee :: foldAll args)
  | .host s name type => f (.host s name type) []
  | .held s index => f (.held s index) []

/-- The folds of several terms. -/
def foldAll : List Term → List β
  | [] => []
  | t :: rest => fold t :: foldAll rest
end

theorem foldAll_eq_map (ts : List Term) : foldAll f ts = ts.map (fold f) := by
  induction ts with
  | nil => rfl
  | cons t rest ih => simp [foldAll, ih]

/-- A fold is determined by the node and the folds of its children. -/
theorem fold_eq (t : Term) : fold f t = f t (t.children.map (fold f)) := by
  cases t <;> simp [fold, children, foldAll_eq_map]

end Fold

/-- All nodes of a term, each before its children. -/
def nodes : Term → List Term := fold fun t below => t :: below.flatten

/-- The identities of all nodes, in the same order. -/
def ids (t : Term) : List NodeId := t.nodes.map id

/-- Find a node by its identity; of several, the first in the order of `nodes`. -/
def find? (id : NodeId) : Term → Option Term :=
  fold fun t below => if t.id = id then some t else below.findSome? fun found => found

/-- Replace the subterms whose identities `f` knows, without looking inside the replacements. -/
def substitute (f : NodeId → Option Term) : Term → Term :=
  fold fun t children => (f t.id).getD (t.withChildren children)

end Term

end Multistage
