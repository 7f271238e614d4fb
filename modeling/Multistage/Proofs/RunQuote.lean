import Multistage.Proofs.Fuel
import Multistage.Proofs.Lifting
import Multistage.Proofs.Stages

/-!
# Code that is run at once

`run <t>` quotes a program and runs the code. Each pass sees the program one level further up: it is checked
in a lifted context, and its references cross as many stages as before. Building the code then copies it,
for the escapes in it all belong to quotes of its own, and what is run is the program itself.

Main statement: `run_quote_transparent`.
-/

namespace Multistage

open Term

/-! ## Building code without escapes of its own -/

namespace Eval

theorem bind_of_ok {α β : Type} {x : Eval α} {f : α → Eval β} {a : α} {m m' : Machine}
    (h : x m = .ok a m') : (x >>= f) m = f a m' := by
  show EStateM.bind x f m = f a m'
  simp [EStateM.bind, h]

theorem bind_of_error {α β : Type} {x : Eval α} {f : α → Eval β} {stop : Stop} {m m' : Machine}
    (h : x m = .error stop m') : (x >>= f) m = .error stop m' := by
  show EStateM.bind x f m = .error stop m'
  simp [EStateM.bind, h]

variable {scope : Scope Slot} {held kept : List Value} {depth : Nat}

/-- With enough fuel the term is copied, and no value is kept. -/
def Copies (scope : Scope Slot) (held kept : List Value) (depth : Nat) (t : Term) : Prop :=
  ∃ enough, ∀ m, build enough t depth scope held kept m = .ok (t, kept) m

/-- Parts that are copied are copied one after the other, with fuel enough for all of them. -/
theorem buildAll_copies {ts : List Term} (h : ∀ t ∈ ts, Copies scope held kept depth t) :
    ∃ enough, ∀ m, buildAll enough ts depth scope held kept m = .ok (ts, kept) m := by
  induction ts with
  | nil => exact ⟨1, fun m => rfl⟩
  | cons t rest ih =>
    rcases List.forall_mem_cons.1 h with ⟨⟨enough, hhead⟩, hrest⟩
    rcases ih hrest with ⟨enough', htail⟩
    refine ⟨max enough enough' + 1, fun m => ?_⟩
    have hfirst := (build_within t depth scope held kept (Nat.le_max_left enough enough')).ok (hhead m)
    have hothers := (buildAll_within rest depth scope held kept (Nat.le_max_right enough enough')).ok (htail m)
    rw [buildAll, bind_of_ok hfirst]
    dsimp only
    rw [bind_of_ok hothers]
    rfl

/-- Code whose escapes belong to quotes of its own is copied. -/
theorem copies_of_escapesInside {t : Term} (h : t.EscapesInside depth) : Copies scope held kept depth t := by
  induction t using induct_children generalizing depth with
  | step t ih =>
    by_cases hquote : t.tag = .quote
    · cases t <;> cases hquote
      next site label snippet body =>
      -- a quote of the code: its body is copied one level further in
      have hbody : body.EscapesInside (depth + 1 : Nat) := h.child (List.mem_singleton_self body)
      rcases ih body (List.mem_singleton_self body) hbody with ⟨enough, hcopy⟩
      refine ⟨enough + 1, fun m => ?_⟩
      rw [build, bind_of_ok (hcopy m)]
      rfl
    by_cases hescape : t.tag = .escape
    · -- the escape is under a quote of the code, and stays
      have hlevel := (escapesInside_iff.1 h).1 hescape
      cases t <;> cases hescape
      next site kind body =>
      cases depth with
      | zero => omega
      | succ depth =>
        have hbody : body.EscapesInside depth := by
          simpa [levelBelow] using h.child (List.mem_singleton_self body)
        rcases ih body (List.mem_singleton_self body) hbody with ⟨enough, hcopy⟩
        refine ⟨enough + 1, fun m => ?_⟩
        rw [build, bind_of_ok (hcopy m)]
        rfl
    · -- any other node is put together from copies of its parts
      have hlevel : t.levelBelow depth = depth := by
        cases t <;> first | rfl | exact absurd rfl hquote | exact absurd rfl hescape
      have hchildren : ∀ child ∈ t.children, Copies scope held kept depth child := by
        intro child hchild
        refine ih child hchild ?_
        have hinside := h.child hchild
        rwa [hlevel] at hinside
      rcases buildAll_copies hchildren with ⟨enough, hcopy⟩
      refine ⟨enough + 1, fun m => ?_⟩
      rw [build_parts hquote hescape, bind_of_ok (hcopy m), withChildren_children]
      rfl

end Eval

/-! ## Running it -/

/-- Where the code is copied, running it does what the program does. -/
theorem interpret_run_quote {t : Term} {fuel : Nat} (outer inner : Site) (label : Option String)
    (snippet : Bool) (h : ∀ m, Eval.build fuel t 0 {} [] [] m = .ok (t, []) m) :
    interpret (fuel + 2) (.run outer (.quote inner label snippet t)) = interpret (fuel + 1) t := by
  funext m
  have hquote : Eval.eval (fuel + 1) (.quote inner label snippet t) {} [] m = .ok (.code t [], {}) m := by
    rw [Eval.eval, Eval.bind_of_ok (h m)]
    rfl
  have hrun : Eval.eval (fuel + 2) (.run outer (.quote inner label snippet t)) {} [] m =
      (Eval.eval (fuel + 1) t {} [] >>= fun r => pure (r.1, {})) m := by
    rw [Eval.eval, Eval.bind_of_ok hquote]
  unfold interpret
  cases heval : Eval.eval (fuel + 1) t {} [] m with
  | ok r m' =>
    rw [Eval.bind_of_ok heval, Eval.bind_of_ok (hrun.trans (Eval.bind_of_ok heval))]
  | error stop m' =>
    rw [Eval.bind_of_error heval, Eval.bind_of_error (hrun.trans (Eval.bind_of_error heval))]

/-- Running a quote ends as its code does, if no escape leads out of it. -/
theorem endsWith_run_quote {t : Term} (h : t.EscapesInside 0) (outer inner : Site) (label : Option String)
    (snippet : Bool) (outcome : EStateM.Result Stop Machine Value) :
    (Term.run outer (.quote inner label snippet t)).EndsWith outcome ↔ t.EndsWith outcome := by
  have hinside : t.EscapesInside (0 : Nat) := h
  obtain ⟨enough, hcopies⟩ : Eval.Copies {} [] [] 0 t := Eval.copies_of_escapesInside hinside
  have hboth : ∀ fuel, enough ≤ fuel →
      interpret (fuel + 2) (.run outer (.quote inner label snippet t)) = interpret (fuel + 1) t := by
    intro fuel hle
    exact interpret_run_quote outer inner label snippet fun m =>
      (Eval.build_within t 0 {} [] [] hle).ok (hcopies m)
  constructor
  · intro hends
    rcases hends.from_on with ⟨start, hfrom⟩
    refine ⟨hends.1, max enough start + 1, ?_⟩
    rw [← hboth _ (Nat.le_max_left _ _)]
    exact hfrom _ (by omega)
  · intro hends
    rcases hends.from_on with ⟨start, hfrom⟩
    refine ⟨hends.1, max enough start + 2, ?_⟩
    rw [hboth _ (Nat.le_max_left _ _)]
    exact hfrom _ (by omega)

/-! ## Checking it -/

variable {p : Prelude} {t : Term} {j : Judgement} {log : Log} (outer inner : Site) (label : Option String)
  (snippet : Bool)

/-- The log of the code that is run: the one of the program, lifted, and the two nodes around it. -/
def Log.runQuote (j : Judgement) (log : Log) : Log :=
  log.lift 1 ++ [(inner.id, ⟨j.type.shift 1, {}⟩)] ++ [(outer.id, ⟨j.type, {}⟩)]

/-- The code of a program of a proper type can be run, and has the type of the program. -/
theorem Judged.runQuote (h : Judged p {} t j log) (hproper : j.type.Proper) :
    Judged p {} (.run outer (.quote inner label snippet t)) ⟨j.type, {}⟩ (Log.runQuote outer inner j log) := by
  have hquote : Judged p {} (.quote inner label snippet t) ⟨j.type.shift 1, {}⟩
      (log.lift 1 ++ [(inner.id, ⟨j.type.shift 1, {}⟩)]) := .quote (j := j.lift 1) (h.lift 1)
  have hrule : runRule outer.id (j.type.shift 1) = .ok j.type := by
    have hstage := hproper.stage_nonneg
    have hcode : (j.type.shift 1).isCode = true := by
      simp only [Ty.isCode, Ty.stage_shift, decide_eq_true_eq]
      omega
    rw [runRule, if_pos hcode, Ty.shift_shift]
    exact congrArg Except.ok (Ty.shift_zero j.type)
  exact .run hquote hrule

/-- The nodes of the program have their judgements, lifted. -/
theorem get?_runQuote (houter : outer.id ∉ t.ids) (hinner : inner.id ∉ t.ids) {id : NodeId} (hid : id ∈ t.ids) :
    (Table.ofList (Log.runQuote outer inner j log)).get? id =
      ((Table.ofList log).get? id).map (Judgement.lift 1) := by
  have hne : ∀ site : Site, site.id ∉ t.ids → site.id ≠ id := fun site hsite heq => hsite (heq ▸ hid)
  rw [Log.runQuote, Table.ofList_concat, Table.get?_insert, if_neg (hne outer houter), Table.ofList_concat,
    Table.get?_insert, if_neg (hne inner hinner)]
  exact Table.get?_ofList_map (Judgement.lift 1) log id

/-- A node around one other is put around what that becomes. -/
theorem explicitAt_of_one {t u u' : Term} {types : TypeTable} {level : Nat} {supply supply' : Supply}
    (htag : t.tag ≠ .lookup) (hchildren : t.children = [u])
    (h : (u.explicitAt types (t.innerLevel level)).run supply = .ok (u', supply')) :
    (t.explicitAt types level).run supply = .ok (t.withChildren [u'], supply') := by
  rw [explicitAt_of_not_lookup htag, hchildren]
  refine run_bind_eq_ok.2 ⟨[u'], supply', ?_, rfl⟩
  rw [List.mapM_cons]
  exact run_bind_eq_ok.2 ⟨u', supply', h, run_bind_eq_ok.2 ⟨[], supply', rfl, rfl⟩⟩

/-- The references of the program become explicit as they do without the quote around it. -/
theorem makeExplicit_runQuote {supply : Supply} {q : Program} (h : Judged p {} t j log)
    (houter : outer.id ∉ t.ids) (hinner : inner.id ∉ t.ids)
    (hq : Program.makeExplicit ⟨t, supply⟩ (Table.ofList log) = .ok q) :
    Program.makeExplicit ⟨.run outer (.quote inner label snippet t), supply⟩
        (Table.ofList (Log.runQuote outer inner j log)) =
      .ok ⟨.run outer (.quote inner label snippet q.root), q.supply⟩ := by
  have hinside : t.EscapesInside (0 : Nat) := h.escapesInside
  have hsame : t.explicitAt (Table.ofList (Log.runQuote outer inner j log)) (0 + 1) =
      t.explicitAt (Table.ofList log) 0 :=
    explicitAt_lift hinside fun id hid => get?_runQuote outer inner houter hinner hid
  have hrun := run_of_makeExplicit hq
  rw [← hsame] at hrun
  have hquote := explicitAt_of_one (t := .quote inner label snippet t) (by simp [tag]) rfl hrun
  have hwhole := explicitAt_of_one (t := .run outer (.quote inner label snippet t)) (by simp [tag]) rfl hquote
  rw [Program.makeExplicit, hwhole]
  rfl

/-- **Running quoted code is the identity, through all passes.** If a program elaborates in a mode and its
references can be made explicit, then so it is with the code of the program that is run at once, whatever
two other identities the nodes around it have: it has the same type, the same references become explicit
with the same identities, and it comes to the same end, with the same output, or to none. -/
theorem run_quote_transparent (mode : Mode) (t : Term) (supply : Supply) (e : Elaboration) (type : Ty)
    (q : Program) (he : (Prelude.ofMode mode).elaborate t = .ok e) (htype : e.rootType? = some type)
    (hq : Program.makeExplicit ⟨t, supply⟩ e.table = .ok q) (outer inner : Site) (label : Option String)
    (snippet : Bool) (houter : outer.id ∉ t.ids) (hinner : inner.id ∉ t.ids) :
    ∃ e', (Prelude.ofMode mode).elaborate (.run outer (.quote inner label snippet t)) = .ok e' ∧
      e'.rootType? = some type ∧
      Program.makeExplicit ⟨.run outer (.quote inner label snippet t), supply⟩ e'.table =
        .ok ⟨.run outer (.quote inner label snippet q.root), q.supply⟩ ∧
      ∀ outcome, (Term.run outer (.quote inner label snippet q.root)).EndsWith outcome ↔
        q.root.EndsWith outcome := by
  have hinside := escapesInside_of_makeExplicit he hq
  rcases elaborate_eq_ok_iff.1 he with ⟨j, log, hj, rfl⟩
  have hroot : some j.type = some type := (rootType?_eq hj).symm.trans htype
  cases hroot
  have hproper := hj.proper_type (Prelude.ofMode_proper mode)
  have hrun := hj.runQuote outer inner label snippet hproper
  have hroot := rootType?_eq hrun
  refine ⟨⟨_, Table.ofList (Log.runQuote outer inner j log)⟩, elaborate_eq_ok_iff.2 ⟨_, _, hrun, rfl⟩,
    hroot, makeExplicit_runQuote outer inner label snippet hj houter hinner hq, ?_⟩
  exact endsWith_run_quote hinside outer inner label snippet

/-- The code holds the value of `x`, also where it is run at once. -/
theorem run_quote_transparent_crossing : ∃ e q type e' body held m,
    (Prelude.ofMode .shader).elaborate crossingTerm = .ok e ∧ e.rootType? = some type ∧
      Program.makeExplicit ⟨crossingTerm, ⟨11⟩⟩ e.table = .ok q ∧ q.supply = ⟨15⟩ ∧
      (Prelude.ofMode .shader).elaborate (.run ⟨20, {}⟩ (.quote ⟨12, {}⟩ none false crossingTerm)) = .ok e' ∧
      e'.rootType? = some type ∧
      Program.makeExplicit ⟨.run ⟨20, {}⟩ (.quote ⟨12, {}⟩ none false crossingTerm), ⟨11⟩⟩ e'.table =
        .ok ⟨.run ⟨20, {}⟩ (.quote ⟨12, {}⟩ none false q.root), q.supply⟩ ∧
      (Term.run ⟨20, {}⟩ (.quote ⟨12, {}⟩ none false q.root)).EndsWith (.ok (.code body held) m) ∧
      held = [.int 2, .int 2] := by
  obtain ⟨e, q, type, he, htype, hq, hsupply, body, held, m, hends, hheld⟩ : ∃ e q type,
      (Prelude.ofMode .shader).elaborate crossingTerm = .ok e ∧ e.rootType? = some type ∧
        Program.makeExplicit ⟨crossingTerm, ⟨11⟩⟩ e.table = .ok q ∧ q.supply = ⟨15⟩ ∧ ∃ body held m,
          q.root.EndsWith (.ok (.code body held) m) ∧ held = [.int 2, .int 2] :=
    ⟨_, _, _, rfl, rfl, rfl, rfl, _, _, _, EndsWith.of_ok (rfl : interpret 20 _ {} = _), rfl⟩
  obtain ⟨e', he', htype', hq', hboth⟩ := run_quote_transparent .shader crossingTerm ⟨11⟩ e type q he
    htype hq ⟨20, {}⟩ ⟨12, {}⟩ none false (by decide) (by decide)
  exact ⟨e, q, type, e', body, held, m, he, htype, hq, hsupply, he', htype', hq', (hboth _).2 hends, hheld⟩

end Multistage
