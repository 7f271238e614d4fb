import Multistage.Term.Basic

/-!
# Comparing terms

Two terms are the same if they agree in shape, identities, source positions and contents. Doubles are
compared as numbers: the two zeros are the same.
-/

namespace Multistage

/-- Whether two literals have the same value. -/
def Literal.same : Literal → Literal → Bool
  | .int a, .int b => a = b
  | .float a, .float b => a == b
  | .string a, .string b => a = b
  | _, _ => false

namespace Term

/-- Whether two nodes agree in all but their children. -/
def sameNode (t u : Term) : Bool :=
  t.site = u.site &&
    match t, u with
    | .literal _ a, .literal _ b => a.same b
    | .define _ a _, .define _ b _ | .assign _ a _, .assign _ b _ | .lookup _ a, .lookup _ b => a = b
    | .unary _ a _, .unary _ b _ => a = b
    | .binary _ a _ _, .binary _ b _ _ => a = b
    | .quote _ a s _, .quote _ b r _ => a = b && s = r
    | .escape _ a _, .escape _ b _ => a = b
    | .lambda _ a _, .lambda _ b _ => a = b
    | .host _ a s, .host _ b r => a = b && s = r
    | .held _ a, .held _ b => a = b
    | .seq .., .seq .. | .run .., .run .. | .call .., .call .. => true
    | _, _ => false

/-- Apply tests to values one by one; the two lists must be equally long. -/
def allMatch : List (Term → Bool) → List Term → Bool
  | [], [] => true
  | test :: tests, t :: ts => test t && allMatch tests ts
  | _, _ => false

/-- Whether two terms are the same. -/
def same : Term → Term → Bool :=
  fold fun t tests u => t.sameNode u && allMatch tests u.children

end Term

end Multistage
