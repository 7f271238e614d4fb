import Multistage.Proofs.HeldReferences
import Multistage.Proofs.OwnLevels

/-!
# Escapes stay inside quotes

The checker admits an escape only under a quote, and evaluation carries out an escape only while it builds
the quote around it. In between, code is put together at run time: splices put terms under quotes and
escapes that they were not checked under, and code is stored, captured and run.

`Term.EscapesInside level` counts the quotes around a term as its level and says that no escape of the term
stands at level 0. A term that is checked has the property (`Judged.escapesInside`), making references
explicit keeps it (`Term.EscapesInside.explicit`), and `escapeInvariant` is its form for terms that are
evaluated: code is at level 0 of its own, so the property leaves no escape in it that is not under a
further quote.

Main statement: `escapes_stay_quoted`.
-/

namespace Multistage

namespace Term

variable {t : Term} {level : Int}

/-- In a term at `level`, each escape is under a quote that it escapes from. -/
def EscapesInside (level : Int) (t : Term) : Prop :=
  ∀ entry ∈ t.nodesAt level, entry.2.tag = .escape → 1 ≤ entry.1

theorem escapesInside_iff : t.EscapesInside level ↔
    (t.tag = .escape → 1 ≤ level) ∧ ∀ child ∈ t.children, child.EscapesInside (t.levelBelow level) :=
  forall_nodesAt

theorem EscapesInside.child {child : Term} (h : t.EscapesInside level) (hchild : child ∈ t.children) :
    child.EscapesInside (t.levelBelow level) :=
  (escapesInside_iff.1 h).2 child hchild

/-- A node that is no escape has the property if its children do. -/
theorem escapesInside_parts (htag : t.tag ≠ .escape)
    (h : ∀ child ∈ t.children, child.EscapesInside (t.levelBelow level)) : t.EscapesInside level :=
  escapesInside_iff.2 ⟨fun hescape => absurd hescape htag, h⟩

theorem escapesInside_leaf (htag : t.tag ≠ .escape) (hleaf : t.children = []) : t.EscapesInside level := by
  refine escapesInside_parts htag ?_
  rw [hleaf]
  exact List.forall_mem_nil _

/-- A node has the property over new children that have it. -/
theorem escapesInside_withChildren {ts : List Term} (htag : t.tag = .escape → 1 ≤ level)
    (hlen : ts.length = t.children.length) (h : ∀ child ∈ ts, child.EscapesInside (t.levelBelow level)) :
    (t.withChildren ts).EscapesInside level := by
  rw [escapesInside_iff, tag_withChildren, children_withChildren hlen, levelBelow_withChildren]
  exact ⟨htag, h⟩

/-- Moving held references moves no escape. -/
theorem EscapesInside.shiftHeld (h : t.EscapesInside level) (offset : Nat) :
    (t.shiftHeld offset).EscapesInside level := by
  induction t using induct_children generalizing level with
  | step t ih =>
    by_cases htag : t.tag = .held
    · cases t <;> cases htag
      exact escapesInside_leaf (by simp [shiftHeld, fold, tag]) rfl
    · rw [shiftHeld_eq htag]
      refine escapesInside_withChildren (escapesInside_iff.1 h).1 (List.length_map _) ?_
      intro child' hchild'
      rcases List.mem_map.1 hchild' with ⟨child, hchild, rfl⟩
      exact ih child hchild (h.child hchild)

/-! ## Explicit references -/

/-- The escapes around a name lead back to levels that are there. -/
theorem escapesInside_persistTimes {count : Nat} {t' : Term} {u u' : Supply}
    (hrun : (t.persistTimes count).run u = .ok (t', u')) (hcount : count ≤ level)
    (h : t.EscapesInside (level - count)) : t'.EscapesInside level := by
  induction count generalizing level t' u' with
  | zero =>
    cases hrun
    simpa using h
  | succ count ih =>
    rw [persistTimes] at hrun
    rcases run_bind_eq_ok.1 hrun with ⟨inner, u₁, hinner, h₁⟩
    rcases run_bind_eq_ok.1 h₁ with ⟨id, u₂, -, h₂⟩
    cases h₂
    have hlevel : level - (count + 1 : Nat) = level - 1 - count := by omega
    rw [hlevel] at h
    have hbody : inner.EscapesInside (level - 1) := ih hinner (by omega) h
    exact escapesInside_iff.2 ⟨fun _ => by omega, List.forall_mem_singleton.2 hbody⟩

/-- Where a term has the property, its children stand at a level that needs no negative numbers. -/
theorem EscapesInside.innerLevel {level : Nat} (h : t.EscapesInside level) :
    (t.innerLevel level : Int) = t.levelBelow level := by
  have hescape := (escapesInside_iff.1 h).1
  cases t with
  | escape site kind body =>
    have := hescape rfl
    simp only [Term.innerLevel, levelBelow]
    omega
  | quote site label snippet body => exact Int.natCast_succ _
  | _ => rfl

/-- Making references explicit adds no escape outside quotes. -/
theorem EscapesInside.explicit {types : TypeTable} {level : Nat} {t' : Term} {u u' : Supply}
    (h : t.EscapesInside level) (hrun : (t.explicitAt types level).run u = .ok (t', u')) :
    t'.EscapesInside level := by
  induction t using induct_children generalizing level t' u u' with
  | step t ih =>
    by_cases htag : t.tag = .lookup
    · cases t <;> cases htag
      cases explicit_of_run hrun with
      | lookup _ hlookup =>
        rcases explicitLookup_cases hlookup with ⟨-, rfl, -⟩ | ⟨binding, -, hle, hpersist⟩
        · exact h
        · refine escapesInside_persistTimes hpersist (by omega) ?_
          exact escapesInside_leaf (by simp [tag]) rfl
    · rw [explicitAt_of_not_lookup htag] at hrun
      rcases run_bind_eq_ok.1 hrun with ⟨children', u₁, hchildren, hpure⟩
      cases hpure
      rcases mapM_run_eq_ok hchildren with ⟨hlength, hmembers⟩
      refine escapesInside_withChildren (escapesInside_iff.1 h).1 hlength fun child' hchild' => ?_
      rcases hmembers child' hchild' with ⟨child, hchild, v, v', hv⟩
      rw [← h.innerLevel]
      refine ih child hchild ?_ hv
      rw [h.innerLevel]
      exact h.child hchild

end Term

/-- The checker keeps escapes inside quotes. -/
theorem Judged.escapesInside {p : Prelude} {c : Context} {t : Term} {j : Judgement} {log : Log}
    (h : Judged p c t j log) : t.EscapesInside c.level := by
  induction t using Term.induct_children generalizing c j log with
  | step t ih =>
    refine Term.escapesInside_iff.2 ⟨fun htag => ?_, fun child hchild => ?_⟩
    · cases h <;> cases htag
      next hlevel _ _ => omega
    · rcases h.child hchild with ⟨c', j', below, hj', -, -, hlevel⟩
      rw [← hlevel]
      exact ih child hchild hj'

/-- A program that elaborates and whose references are made explicit has its escapes inside quotes. -/
theorem escapesInside_of_makeExplicit {p : Prelude} {t : Term} {supply : Supply} {e : Elaboration}
    {q : Program} (he : p.elaborate t = .ok e)
    (hq : Program.makeExplicit ⟨t, supply⟩ e.table = .ok q) : q.root.EscapesInside 0 := by
  rcases elaborate_eq_ok_iff.1 he with ⟨j, log, hj, -⟩
  have ht : t.EscapesInside (0 : Nat) := hj.escapesInside
  exact ht.explicit (run_of_makeExplicit hq)

/-! ## Evaluation -/

/-- Escapes stay inside quotes, however many values are held. -/
def escapeInvariant : CodeInvariant where
  holds _ level t := t.EscapesInside level
  stops stop := stop ≠ .failure .escapeOutsideQuote
  child h hchild := h.child hchild
  rebuilt {_ _ depth _ _} _ htag hlen hts := by
    refine Term.escapesInside_withChildren (fun hescape => ?_) hlen hts
    have := htag hescape
    omega
  more h _ := h
  spliced offset h := h.shiftHeld offset
  kept _ _ := Term.escapesInside_leaf (by simp [Term.tag]) rfl
  outOfFuel hstop := by cases hstop
  ordinary hfailure hstop := by
    injection hstop with hstop
    subst hstop
    exact hfailure
  escape h := absurd ((Term.escapesInside_iff.1 h).1 rfl) (by decide)
  missing _ _ hstop := by cases hstop

/-- **No escape is evaluated outside a quote.** If a program elaborates and its references are made
explicit, then no evaluation of the result meets an escape without a quote around it, and in all code that
arises on the way, no escape is left but those under further quotes. -/
theorem escapes_stay_quoted (p : Prelude) (t : Term) (supply : Supply) (e : Elaboration) (q : Program)
    (he : p.elaborate t = .ok e) (hq : Program.makeExplicit ⟨t, supply⟩ e.table = .ok q) (fuel : Nat) :
    (∀ m, interpret fuel q.root {} ≠ .error (.failure .escapeOutsideQuote) m) ∧
    ∀ body held, Eval.Arises fuel q.root (.code body held) →
      ∀ entry ∈ body.nodesAt 0, entry.2.tag = .escape → 1 ≤ entry.1 := by
  have hinside : escapeInvariant.holds 0 0 q.root := escapesInside_of_makeExplicit he hq
  constructor
  · intro m herror
    have hstart : Eval.Reached fuel q.root fuel (.eval q.root {} []) {} := .start
    rcases hstart.meets hinside with ⟨hc, hm⟩
    have hrun : Eval.Yields (interpret fuel q.root) {} (fun _ _ => True) (Eval.Stopped escapeInvariant) :=
      (Eval.preserved fuel _ {} hc hm).bind fun _ _ _ => Eval.yields_pure trivial
    exact (hrun.error herror).2 rfl
  · intro body held harises
    cases harises.meets hinside with
    | code hbody _ => exact hbody

/-- The outer quote keeps the value of `x` for the inner one: of the two escapes around its use the inner
one is carried out, and the outer one stays in the code, under the inner quote. -/
theorem escapes_stay_quoted_crossing : ∃ e q body held,
    Prelude.general.elaborate crossingTerm = .ok e ∧
      Program.makeExplicit ⟨crossingTerm, ⟨11⟩⟩ e.table = .ok q ∧
      Eval.Arises 20 q.root (.code body held) ∧
      ((body.nodesAt 0).filter (·.2.tag = .escape)).map (·.1) = [1, 1] ∧
      (∀ entry ∈ body.nodesAt 0, entry.2.tag = .escape → 1 ≤ entry.1) ∧
      ∀ m, interpret 20 q.root {} ≠ .error (.failure .escapeOutsideQuote) m := by
  obtain ⟨e, q, he, hq, hroot⟩ : ∃ e q, Prelude.general.elaborate crossingTerm = .ok e ∧
      Program.makeExplicit ⟨crossingTerm, ⟨11⟩⟩ e.table = .ok q ∧ ∃ body held,
        Eval.Arises 20 q.root (.code body held) ∧
          ((body.nodesAt 0).filter (·.2.tag = .escape)).map (·.1) = [1, 1] :=
    ⟨_, _, rfl, rfl, _, _, .result .start (.eval rfl) (List.mem_singleton_self _), rfl⟩
  rcases hroot with ⟨body, held, harises, hescapes⟩
  have h := escapes_stay_quoted Prelude.general crossingTerm ⟨11⟩ e q he hq 20
  exact ⟨e, q, body, held, he, hq, harises, hescapes, h.2 body held harises, h.1⟩

end Multistage
