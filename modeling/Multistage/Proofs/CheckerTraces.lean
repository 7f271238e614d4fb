import Multistage.Proofs.Escapes
import Multistage.Proofs.Pointwise

/-!
# Where the checker goes

`Prelude.trace` is the walk of the checker with a list on the side of all nodes that it comes to, each with the
context that it has there, before it is judged. `Tracks x y nodes` says that `x` ends as `y` does and adds `nodes` to
the list, seen with the levels of the contexts. It goes through rules and sequences, so it holds of the walk by
induction over the term.

Main statement: `tracks_trace`, the walk with the list is the walk of the checker, and comes to every node once,
at the level given by the quotes and escapes around it.
-/

namespace Multistage

/-- The nodes that a walk has come to, each with the context there. -/
abbrev Visits := List (Context × Term)

/-- Come to a node before it is judged. -/
def arriving (t : Term) (c : Context) (judgement : StateT Visits (Except Fault) Judgement) :
    StateT Visits (Except Fault) Judgement := do
  modify (· ++ [(c, t)])
  judgement

/-- Judge a node and all nodes below it, and list the nodes. -/
def Prelude.trace (p : Prelude) (t : Term) (c : Context) : StateT Visits (Except Fault) Judgement :=
  p.judge .unbounded arriving t c

/-! ## Computations that list nodes -/

/-- Visits with the levels of the contexts. -/
def Visits.levels (visits : Visits) : List (Int × Term) := visits.map fun v => (v.1.level, v.2)

section Tracks

variable {ε α β : Type} {x : StateT Visits (Except ε) α} {y : Except ε α} {nodes : List (Int × Term)}

/-- `x` ends as `y` does, and has come to `nodes` then. -/
def Tracks (x : StateT Visits (Except ε) α) (y : Except ε α) (nodes : List (Int × Term)) : Prop :=
  ∀ visits, (x.run visits).map (fun r => (r.1, r.2.levels)) = y.map fun a => (a, visits.levels ++ nodes)

theorem tracks_pure (a : α) : Tracks (pure a : StateT Visits (Except ε) α) (.ok a) [] := by
  intro visits
  rw [List.append_nil]
  rfl

/-- A rule of the checker comes to no node. -/
theorem tracks_rule (y : Except ε α) : Tracks (liftM y : StateT Visits (Except ε) α) y [] := by
  intro visits
  rw [List.append_nil]
  cases y <;> rfl

/-- Two traced steps visit the nodes of the first and then those of the second. -/
theorem Tracks.bind {g : α → StateT Visits (Except ε) β} {h : α → Except ε β} {more : List (Int × Term)}
    (hx : Tracks x y nodes) (hg : ∀ a, Tracks (g a) (h a) more) : Tracks (x >>= g) (y >>= h) (nodes ++ more) := by
  intro visits
  have hfirst := hx visits
  rw [StateT.run_bind]
  rcases hrun : x.run visits with e | ⟨a, visits₁⟩
  · rw [hrun] at hfirst
    cases y with
    | ok => cases hfirst
    | error =>
      cases hfirst
      rfl
  · rw [hrun] at hfirst
    cases y with
    | error => cases hfirst
    | ok b =>
      obtain ⟨rfl, hvisits⟩ := Prod.mk.inj (Except.ok.inj hfirst)
      have hnext := hg a visits₁
      rw [hvisits, List.append_assoc] at hnext
      exact hnext

theorem Tracks.of_eq {nodes' : List (Int × Term)} (h : Tracks x y nodes) (heq : nodes = nodes') :
    Tracks x y nodes' := heq ▸ h

/-- Coming to a node first. -/
theorem Tracks.arrive {x : StateT Visits (Except Fault) Judgement} {y : Except Fault Judgement} (t : Term)
    (c : Context) (h : Tracks x y nodes) : Tracks (arriving t c x) y ((c.level, t) :: nodes) := by
  intro visits
  have hnext := h (visits ++ [(c, t)])
  rw [Visits.levels, List.map_append, List.append_assoc] at hnext
  exact hnext

/-- Where `y` succeeds, `x` has come to all nodes. -/
theorem Tracks.run_eq_ok {a : α} (h : Tracks x y nodes) (hy : y = .ok a) :
    ∃ visits, x.run [] = .ok (a, visits) ∧ visits.levels = nodes := by
  have hrun := h []
  rw [hy] at hrun
  rcases hx : x.run [] with e | ⟨b, visits⟩
  · rw [hx] at hrun
    cases hrun
  · rw [hx] at hrun
    obtain ⟨rfl, hvisits⟩ := Prod.mk.inj (Except.ok.inj hrun)
    exact ⟨visits, rfl, hvisits⟩

end Tracks

/-! ## The walk of the checker -/

section Walk

variable (p : Prelude)

/-- The trace through arguments visits the nodes of each of them, at the level of the call. -/
theorem tracks_judgeAll {ts : List Term} (c : Context)
    (ih : ∀ t ∈ ts, ∀ c, Tracks (p.trace t c) (p.checkIn c t) (t.nodesAt c.level)) :
    Tracks (p.judgeAll .unbounded arriving ts c) (p.judgeAll .unbounded (fun _ _ j => j) ts c)
      (ts.flatMap fun t => t.nodesAt c.level) := by
  induction ts with
  | nil => exact tracks_pure []
  | cons t rest ihrest =>
    have hhead := ih t List.mem_cons_self c
    have htail := ihrest fun u hu => ih u (List.mem_cons_of_mem _ hu)
    refine (hhead.bind fun j => htail.bind fun types => tracks_pure _).of_eq ?_
    rw [List.append_nil, List.flatMap_cons]

/-- The walk with a list of nodes is the walk of the checker, and comes to every node of a term once, at the
level where it stands. -/
theorem tracks_trace (t : Term) (c : Context) :
    Tracks (p.trace t c) (p.checkIn c t) (t.nodesAt c.level) := by
  rw [Prelude.trace, Prelude.checkIn, Prelude.checkWith]
  induction t generalizing c with
  | literal site value =>
    rw [Prelude.judge_literal, Prelude.judge_literal, Term.nodesAt_eq]
    exact (tracks_pure _).arrive _ c
  | seq site lhs rhs ihl ihr =>
    rw [Prelude.judge_seq, Prelude.judge_seq, Term.nodesAt_eq]
    -- the second part is judged in the scope that the first one leaves, at the same level
    have hr : ∀ first : Judgement, Tracks (p.trace rhs (c.withScope first.scope))
        (p.checkIn (c.withScope first.scope) rhs) (rhs.nodesAt c.level) := fun first => ihr _
    apply Tracks.arrive
    refine ((ihl c).bind hr).of_eq ?_
    simp [Term.children, Term.levelBelow]
  | define site name value ih =>
    rw [Prelude.judge_define, Prelude.judge_define, Term.nodesAt_eq]
    apply Tracks.arrive
    refine ((ih c).bind fun j => tracks_pure _).of_eq ?_
    simp [Term.children, Term.levelBelow]
  | assign site name value ih =>
    rw [Prelude.judge_assign, Prelude.judge_assign, Term.nodesAt_eq]
    apply Tracks.arrive
    refine ((ih c).bind fun j => (tracks_rule _).bind fun _ => tracks_pure j).of_eq ?_
    simp [Term.children, Term.levelBelow]
  | lookup site name =>
    rw [Prelude.judge_lookup, Prelude.judge_lookup, Term.nodesAt_eq]
    apply Tracks.arrive
    exact (tracks_rule _).bind fun type => tracks_pure _
  | unary site op operand ih =>
    rw [Prelude.judge_unary, Prelude.judge_unary, Term.nodesAt_eq]
    apply Tracks.arrive
    refine ((ih c).bind fun j => (tracks_rule _).bind fun type => tracks_pure _).of_eq ?_
    simp [Term.children, Term.levelBelow]
  | binary site op lhs rhs ihl ihr =>
    rw [Prelude.judge_binary, Prelude.judge_binary, Term.nodesAt_eq]
    have hr : ∀ first : Judgement, Tracks (p.trace rhs (c.withScope first.scope))
        (p.checkIn (c.withScope first.scope) rhs) (rhs.nodesAt c.level) := fun first => ihr _
    apply Tracks.arrive
    refine ((ihl c).bind fun first => (hr first).bind fun second =>
      (tracks_rule _).bind fun type => tracks_pure _).of_eq ?_
    simp [Term.children, Term.levelBelow]
  | quote site label snippet body ih =>
    rw [Prelude.judge_quote_unbounded, Prelude.judge_quote_unbounded, Term.nodesAt_eq]
    apply Tracks.arrive
    -- one level further in
    refine ((ih c.quoted).bind fun j => tracks_pure _).of_eq ?_
    simp [Term.children, Term.levelBelow, Context.quoted]
  | escape site kind body ih =>
    rw [Prelude.judge_escape_unbounded, Prelude.judge_escape_unbounded, Term.nodesAt_eq]
    apply Tracks.arrive
    by_cases hlevel : c.level = 0
    · -- there is no node to come to below an escape that fails
      rw [if_pos hlevel, if_pos hlevel]
      intro visits
      rfl
    · rw [if_neg hlevel, if_neg hlevel]
      -- one level further out
      have hbelow : (c.escaped.level : Int) = c.level - 1 := by
        simp only [Context.escaped]
        omega
      refine ((ih c.escaped).bind fun j => (tracks_rule _).bind fun type => tracks_pure _).of_eq ?_
      simp [Term.children, Term.levelBelow, hbelow]
  | run site body ih =>
    rw [Prelude.judge_run, Prelude.judge_run, Term.nodesAt_eq]
    apply Tracks.arrive
    refine ((ih c).bind fun j => (tracks_rule _).bind fun type => tracks_pure _).of_eq ?_
    simp [Term.children, Term.levelBelow]
  | lambda site params body ih =>
    rw [Prelude.judge_lambda, Prelude.judge_lambda, Term.nodesAt_eq]
    -- resolving the parameters comes to no node
    have hbody : ∀ types, Tracks (p.trace body (c.withScope (c.bindAll types)))
        (p.checkIn (c.withScope (c.bindAll types)) body) (body.nodesAt c.level) := fun types => ih _
    apply Tracks.arrive
    refine ((tracks_rule _).bind fun types => (hbody types).bind fun j => tracks_pure _).of_eq ?_
    simp [Term.children, Term.levelBelow]
  | call site callee args ihf iha =>
    rw [Prelude.judge_call, Prelude.judge_call, Term.nodesAt_eq]
    apply Tracks.arrive
    refine ((ihf c).bind fun j => (tracks_judgeAll p c iha).bind fun types =>
      (tracks_rule _).bind fun type => tracks_pure _).of_eq ?_
    simp [Term.children, Term.levelBelow]
  | host site name written =>
    rw [Prelude.judge_host, Prelude.judge_host, Term.nodesAt_eq]
    apply Tracks.arrive
    exact (tracks_rule _).bind fun type => tracks_pure _
  | held site index =>
    rw [Prelude.judge_held, Prelude.judge_held, Term.nodesAt_eq]
    apply Tracks.arrive
    exact tracks_rule _

end Walk

end Multistage
