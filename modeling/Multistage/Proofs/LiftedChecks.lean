import Multistage.Proofs.Lifting

/-!
# Checking under further quotes

`Judged.lift` is about terms that pass the checker. Here both outcomes are compared: in a lifted context the
checker gives the same type, with the scope after it lifted, or stops at the same fault. The one fault that
further quotes can remove is an escape outside all quotes.

`Carries f x y` says that `y` ends as `x` does, up to `f`, unless `x` stops at such an escape. It goes through
rules and sequences, so it holds of the walk by induction over the term (`carries_checkIn`).

Main statement: `checkIn_lift`.
-/

namespace Multistage

/-! ## Computations with the same outcome -/

section Carries

variable {α α' β β' : Type}

/-- `y` ends as `x` does, with `f` applied to what it gives, unless `x` stops at an escape outside all quotes. -/
def Carries (f : α → α') (x : Except Fault α) (y : Except Fault α') : Prop :=
  (∃ node, x = .error (.topLevelEscape node)) ∨ y = x.map f

theorem carries_ok (f : α → α') (a : α) : Carries f (.ok a) (.ok (f a)) := .inr rfl

/-- A rule that does not see the levels ends alike in both contexts. -/
theorem carries_rule (x : Except Fault α) : Carries id x x := by
  right
  cases x <;> rfl

theorem Carries.bind {f : α → α'} {g : β → β'} {x : Except Fault α} {y : Except Fault α'}
    {h : α → Except Fault β} {k : α' → Except Fault β'} (hx : Carries f x y)
    (hk : ∀ a, Carries g (h a) (k (f a))) : Carries g (x >>= h) (y >>= k) := by
  rcases hx with ⟨node, rfl⟩ | rfl
  · exact .inl ⟨node, rfl⟩
  · cases x with
    | error fault => exact .inr rfl
    | ok a => exact hk a

theorem Carries.of_ok {f : α → α'} {x : Except Fault α} {y : Except Fault α'} {a : α} (h : Carries f x y)
    (hx : x = .ok a) : y = .ok (f a) := by
  rcases h with ⟨node, hnode⟩ | rfl
  · rw [hx] at hnode
    cases hnode
  · rw [hx]
    rfl

/-- A fault is carried over, unless it is that of an escape outside all quotes. -/
theorem Carries.of_error {f : α → α'} {x : Except Fault α} {y : Except Fault α'} {fault : Fault}
    (h : Carries f x y) (hx : x = .error fault) (hfault : ∀ node, fault ≠ .topLevelEscape node) :
    y = .error fault := by
  rcases h with ⟨node, hnode⟩ | rfl
  · rw [hx] at hnode
    exact absurd (Except.error.inj hnode) (hfault node)
  · rw [hx]
    rfl

end Carries

/-! ## The walk of the checker -/

section Walk

variable (p : Prelude) (amount : Nat)

/-- Arguments are checked alike in the lifted context. -/
theorem carries_judgeAll {ts : List Term} (c : Context)
    (ih : ∀ t ∈ ts, ∀ c, Carries (Judgement.lift amount) (p.checkIn c t) (p.checkIn (c.lift amount) t)) :
    Carries id (p.judgeAll .unbounded (fun _ _ j => j) ts c)
      (p.judgeAll .unbounded (fun _ _ j => j) ts (c.lift amount)) := by
  induction ts with
  | nil => exact carries_ok id []
  | cons t rest ihrest =>
    have hhead := ih t List.mem_cons_self c
    have htail := ihrest fun u hu => ih u (List.mem_cons_of_mem _ hu)
    exact hhead.bind fun j => htail.bind fun types => carries_ok id _

/-- A term is checked alike in a context and in the lifted one. -/
theorem carries_checkIn (t : Term) (c : Context) :
    Carries (Judgement.lift amount) (p.checkIn c t) (p.checkIn (c.lift amount) t) := by
  rw [Prelude.checkIn, Prelude.checkIn, Prelude.checkWith, Prelude.checkWith]
  -- both sides apply the same rule, to parts that are carried by the induction hypothesis
  induction t generalizing c with
  | literal site value =>
    rw [Prelude.judge_literal, Prelude.judge_literal]
    exact carries_ok _ (⟨value.type, c.scope⟩ : Judgement)
  | seq site lhs rhs ihl ihr =>
    rw [Prelude.judge_seq, Prelude.judge_seq]
    exact (ihl c).bind fun first => ihr (c.withScope first.scope)
  | define site name value ih =>
    rw [Prelude.judge_define, Prelude.judge_define]
    exact (ih c).bind fun j => carries_ok _ (⟨j.type, c.bind j.scope name j.type⟩ : Judgement)
  | assign site name value ih =>
    rw [Prelude.judge_assign, Prelude.judge_assign]
    refine (ih c).bind fun j => ?_
    -- the rules for names see levels only as differences
    have hrule : Carries id (p.assignRule c site.id name j.type)
        (p.assignRule (c.lift amount) site.id name j.type) := by
      rw [assignRule_lift]
      exact carries_rule _
    exact hrule.bind fun _ => carries_ok _ j
  | lookup site name =>
    rw [Prelude.judge_lookup_unbounded, Prelude.judge_lookup_unbounded, lookupRule_lift]
    exact (carries_rule _).bind fun type => carries_ok _ (⟨type, c.scope⟩ : Judgement)
  | unary site op operand ih =>
    rw [Prelude.judge_unary, Prelude.judge_unary]
    exact (ih c).bind fun j => (carries_rule _).bind fun type =>
      carries_ok _ (⟨type, c.scope⟩ : Judgement)
  | binary site op lhs rhs ihl ihr =>
    rw [Prelude.judge_binary, Prelude.judge_binary]
    exact (ihl c).bind fun first => (ihr (c.withScope first.scope)).bind fun second =>
      (carries_rule _).bind fun type => carries_ok _ (⟨type, c.scope⟩ : Judgement)
  | quote site label snippet body ih =>
    rw [Prelude.judge_quote_unbounded, Prelude.judge_quote_unbounded, Context.quoted_lift]
    exact (ih c.quoted).bind fun j => carries_ok _ (⟨j.type.shift 1, c.scope⟩ : Judgement)
  | escape site kind body ih =>
    rw [Prelude.judge_escape_unbounded, Prelude.judge_escape_unbounded]
    by_cases hlevel : c.level = 0
    · -- the only fault that may be gone in the lifted context
      rw [if_pos hlevel]
      exact .inl ⟨site.id, rfl⟩
    · -- otherwise both contexts have a quote to escape from
      have hlifted : (c.lift amount).level ≠ 0 := by
        show c.level + amount ≠ 0
        omega
      rw [if_neg hlevel, if_neg hlifted, Context.escaped_lift amount c hlevel]
      exact (ih c.escaped).bind fun j => (carries_rule _).bind fun type =>
        carries_ok _ (⟨type, c.scope⟩ : Judgement)
  | run site body ih =>
    rw [Prelude.judge_run, Prelude.judge_run]
    exact (ih c).bind fun j => (carries_rule _).bind fun type =>
      carries_ok _ (⟨type, j.scope⟩ : Judgement)
  | lambda site params body ih =>
    rw [Prelude.judge_lambda_unbounded, Prelude.judge_lambda_unbounded]
    refine (carries_rule _).bind fun types => ?_
    -- the parameters are bound at the level of the context, which is lifted with them
    have hbody := ih (c.withScope (c.bindAll types))
    rw [id, Context.bindAll_lift]
    exact hbody.bind fun j => carries_ok _ (⟨.function (types.map (·.2)) j.type, c.scope⟩ : Judgement)
  | call site callee args ihf iha =>
    rw [Prelude.judge_call, Prelude.judge_call]
    exact (ihf c).bind fun f => (carries_judgeAll p amount c iha).bind fun types =>
      (carries_rule _).bind fun type => carries_ok _ (⟨type, c.scope⟩ : Judgement)
  | host site name written =>
    rw [Prelude.judge_host_unbounded, Prelude.judge_host_unbounded]
    exact (carries_rule _).bind fun type =>
      carries_ok _ (⟨type, c.bind c.scope name type⟩ : Judgement)
  | held site index =>
    rw [Prelude.judge_held, Prelude.judge_held]
    exact .inr rfl

end Walk

/-- **Checking is invariant under lifting.** Put a context under `amount` further quotes and bind all its names
there too, at the types that they have. A term that the checker accepts in the context has the same type in the
lifted one, and the scope after it is the lifted scope. A term that the checker refuses in the context, other
than for an escape outside all quotes, it refuses in the lifted one for the same fault. -/
theorem checkIn_lift (p : Prelude) (c : Context) (amount : Nat) (t : Term) :
    (∀ j, p.checkIn c t = .ok j → p.checkIn (c.lift amount) t = .ok ⟨j.type, j.scope.lift amount⟩) ∧
    ∀ fault, p.checkIn c t = .error fault → (∀ node, fault ≠ .topLevelEscape node) →
      p.checkIn (c.lift amount) t = .error fault := by
  have hwalk := carries_checkIn p amount t c
  constructor
  · intro j hj
    exact hwalk.of_ok hj
  · intro fault hfault htop
    exact hwalk.of_error hfault htop

/-- Inside a quote, with `x` bound to an integer outside it. -/
def insideQuote : Context := ⟨Scope.empty.extend "x" ⟨.base .int (-1), 0⟩, 1⟩

/-- `let y = [<x>]` -/
def splicedUse : Term :=
  .define ⟨0, {}⟩ "y" (.escape ⟨1, {}⟩ .splice (.quote ⟨2, {}⟩ none false (.lookup ⟨3, {}⟩ "x")))

/-- `x = 1` -/
def assignedUse : Term := .assign ⟨0, {}⟩ "x" (.literal ⟨1, {}⟩ (.int 1))

/-- Three quotes further in, `x` can still be used across one of them, and still not be assigned. -/
theorem checkIn_lift_insideQuote :
    (insideQuote.lift 3).level = 4 ∧
    Prelude.general.checkIn (insideQuote.lift 3) splicedUse =
      .ok ⟨.int, (insideQuote.lift 3).scope.extend "y" ⟨.int, 4⟩⟩ ∧
    Prelude.general.checkIn (insideQuote.lift 3) assignedUse =
      .error (.stageMismatch 0 (.assignment "x")) := by
  have haccepted : Prelude.general.checkIn insideQuote splicedUse =
      .ok ⟨.int, insideQuote.scope.extend "y" ⟨.int, 1⟩⟩ := by decide +kernel
  have hrefused : Prelude.general.checkIn insideQuote assignedUse =
      .error (.stageMismatch 0 (.assignment "x")) := rfl
  have htop : ∀ node, Fault.stageMismatch 0 (.assignment "x") ≠ .topLevelEscape node := by
    intro node h
    cases h
  exact ⟨rfl, (checkIn_lift Prelude.general insideQuote 3 splicedUse).1 _ haccepted,
    (checkIn_lift Prelude.general insideQuote 3 assignedUse).2 _ hrefused htop⟩

end Multistage
