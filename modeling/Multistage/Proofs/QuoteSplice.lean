import Multistage.Proofs.LiftedChecks
import Multistage.Proofs.StageBounds

/-!
# Quote and splice cancel

A splice inside a quote, and a quote inside a splice, bring the checker back to the context that it came from: the
stages and the level move one way and then the other. What is left of the pair is the test that a splice makes of
its body, and that the numbers on the way are words. Under a quote a splice asks for code, which not every term is.
Around a quote it asks for a type that is not below stage zero.

That is all the checker ever gives in the contexts that it comes to itself, where a name has a stage of a word at the
level where it is bound. In other contexts the levels between a name and its binding may be too many for a signed
word, and their number wraps around to one below zero: see `splice_of_quote_refused`.

Main statements: `Prelude.checkIn32_fits`, types stay words, and `quote_and_splice_cancel`.
-/

namespace Multistage

variable {p : Prelude} {c : Context} {t : Term}

/-! ## The context comes back -/

theorem Context.escaped_quoted (c : Context) : c.quoted.escaped = c := by
  simp [Context.quoted, Context.escaped]

theorem Context.quoted_escaped (h : c.level ≠ 0) : c.escaped.quoted = c := by
  have hlevel : c.level - 1 + 1 = c.level := by omega
  simp [Context.quoted, Context.escaped, hlevel]

/-! ## Types stay words -/

/-- The levels and the types of all names in scope, hidden ones included, are words. -/
def Scope.Fits (scope : Scope Binding) : Prop :=
  ∀ frame ∈ scope.frames, ∀ entry ∈ frame, entry.2.level < UInt32.size ∧ entry.2.type.fits = true

theorem Context.fits_iff : c.fits = true ↔ c.level < UInt32.size ∧ c.scope.Fits := by
  simp [Context.fits, Scope.Fits]

namespace Scope.Fits

variable {scope : Scope Binding}

theorem lookup (h : scope.Fits) {name : String} {b : Binding} (hb : scope.lookup? name = some b) :
    b.type.fits = true := by
  rcases List.exists_of_findSome?_eq_some hb with ⟨frame, hframe, hnewest⟩
  have hmem := List.mem_reverse.1 (Scope.mem_of_newest? hnewest)
  exact (h frame hframe _ hmem).2

theorem extendAll (h : scope.Fits) {level : Nat} (hlevel : level < UInt32.size) {bound : List (String × Ty)}
    (hbound : ∀ b ∈ bound, b.2.fits = true) :
    (scope.extendAll (bound.map fun b => (b.1, ⟨b.2, level⟩))).Fits := by
  refine List.forall_mem_cons.2 ⟨List.forall_mem_map.2 fun b hb => ?_, h⟩
  exact ⟨hlevel, hbound b hb⟩

theorem extend (h : scope.Fits) {level : Nat} (hlevel : level < UInt32.size) {τ : Ty} (hτ : τ.fits = true)
    (name : String) : (scope.extend name ⟨τ, level⟩).Fits := by
  have hbound : ∀ b ∈ [(name, τ)], b.2.fits = true := List.forall_mem_singleton.2 hτ
  exact h.extendAll hlevel hbound

end Scope.Fits

section Upholds

variable {ε α β : Type} {P : α → Prop} {R : β → Prop}

/-- What a computation gives, if it gives anything, has a property. -/
def Upholds (P : α → Prop) (x : Except ε α) : Prop := ∀ a, x = .ok a → P a

theorem upholds_ok {a : α} (h : P a) : Upholds P (.ok a : Except ε α) :=
  fun _ heq => Except.ok.inj heq ▸ h

/-- A rule that raises faults only. -/
theorem upholds_rule {x : Except Fault α} (h : ∀ a, x = .ok a → P a) : Upholds P (liftM x : Except Obstacle α) := by
  intro a ha
  cases x with
  | error fault => cases ha
  | ok b =>
    cases ha
    exact h a rfl

theorem Upholds.bind {x : Except ε α} {g : α → Except ε β} (hx : Upholds P x) (hg : ∀ a, P a → Upholds R (g a)) :
    Upholds R (x >>= g) := by
  intro b hb
  rcases Except.bind_eq_ok.1 hb with ⟨a, ha, hgb⟩
  exact hg a (hx a ha) b hgb

/-- A type that is admitted fits. -/
theorem upholds_type (τ : Ty) : Upholds (fun τ => τ.fits = true) (Counting.word.type τ) := by
  intro τ' hτ'
  rw [Counting.word_type] at hτ'
  split at hτ'
  · cases hτ'
    assumption
  · cases hτ'

/-- A context that is admitted fits, and is the one that was asked for. -/
theorem upholds_context (c : Context) : Upholds (fun c' => c' = c ∧ c.fits = true) (Counting.word.context c) := by
  intro c' hc'
  rw [Counting.word_context] at hc'
  split at hc'
  · cases hc'
    exact ⟨rfl, ‹_›⟩
  · cases hc'

end Upholds

section Fits

variable {node : NodeId}

mutual
/-- A written type that resolves in words is one of words. -/
theorem upholds_resolve (written : TypeExpr) :
    Upholds (fun τ => τ.fits = true) (p.resolveWith Counting.word.type node written) := by
  match written with
  | .named name =>
    rw [Prelude.resolveWith]
    split
    · exact upholds_type _
    · intro τ hτ
      cases hτ
  | .code inner =>
    rw [Prelude.resolveWith]
    exact (upholds_resolve inner).bind fun τ _ => upholds_type _
  | .arrow params result =>
    rw [Prelude.resolveWith]
    exact (upholds_resolveAll params).bind fun types htypes => (upholds_resolve result).bind fun τ hτ =>
      upholds_ok (Ty.fits_closed.function htypes hτ)

theorem upholds_resolveAll (written : List TypeExpr) :
    Upholds (fun types => ∀ τ ∈ types, τ.fits = true) (p.resolveAllWith Counting.word.type node written) := by
  match written with
  | [] =>
    rw [Prelude.resolveAllWith]
    exact upholds_ok (by simp)
  | first :: rest =>
    rw [Prelude.resolveAllWith]
    exact (upholds_resolve first).bind fun τ hτ => (upholds_resolveAll rest).bind fun types htypes =>
      upholds_ok (List.forall_mem_cons.2 ⟨hτ, htypes⟩)
end

/-- Parameters have types of words. -/
theorem upholds_params (params : List Param) :
    Upholds (fun bound => ∀ b ∈ bound, b.2.fits = true) (p.paramsWith .word node params) := by
  rw [Prelude.paramsWith]
  induction params with
  | nil => exact upholds_ok (by simp)
  | cons param rest ih =>
    rw [List.mapM_cons]
    refine Upholds.bind (P := fun b => b.2.fits = true) ?_ fun b hb => ih.bind fun bound hbound =>
      upholds_ok (List.forall_mem_cons.2 ⟨hb, hbound⟩)
    cases param.type with
    | none => exact upholds_ok rfl
    | some written => exact (upholds_resolve written).bind fun τ hτ => upholds_ok hτ

/-- A name has a type of words. -/
theorem upholds_lookup (name : String) :
    Upholds (fun τ => τ.fits = true) (p.lookupWith .word c node name) := by
  rw [Prelude.lookupWith]
  split
  · exact upholds_type _
  · split
    · exact upholds_type _
    · intro τ hτ
      cases hτ

end Fits

/-- **Types stay words.** In a context of words, the checker in words gives terms types of words only, and leaves
scopes of words. -/
theorem Prelude.checkIn32_fits (hc : c.fits = true) :
    Upholds (fun j : Judgement => j.type.fits = true ∧ j.scope.Fits) (p.checkIn32 c t) := by
  rw [checkIn32, checkWith]
  -- each rule either checks that its result fits, or makes it from parts that do
  induction t generalizing c with
  | literal site value =>
    rw [judge_literal]
    exact upholds_ok ⟨Ty.fits_closed.literal value, (Context.fits_iff.1 hc).2⟩
  | seq site lhs rhs ihl ihr =>
    rw [judge_seq]
    refine (ihl hc).bind fun first hfirst => ihr ?_
    exact Context.fits_iff.2 ⟨(Context.fits_iff.1 hc).1, hfirst.2⟩
  | define site name value ih =>
    -- the binding is of the type of the value, at a level that fits
    rw [judge_define]
    exact (ih hc).bind fun j hj => upholds_ok ⟨hj.1, hj.2.extend (Context.fits_iff.1 hc).1 hj.1 name⟩
  | assign site name value ih =>
    rw [judge_assign]
    exact (ih hc).bind fun j hj => (upholds_rule fun _ _ => trivial).bind fun _ _ => upholds_ok hj
  | lookup site name =>
    rw [judge_lookup]
    exact (upholds_lookup name).bind fun τ hτ => upholds_ok ⟨hτ, (Context.fits_iff.1 hc).2⟩
  | unary site op operand ih =>
    rw [judge_unary]
    exact (ih hc).bind fun j hj => (upholds_rule fun τ hτ => unaryRule_eq_ok hτ ▸ hj.1).bind fun τ hτ =>
      upholds_ok ⟨hτ, (Context.fits_iff.1 hc).2⟩
  | binary site op lhs rhs ihl ihr =>
    rw [judge_binary]
    refine (ihl hc).bind fun first hfirst => (ihr ?_).bind fun second hsecond =>
      (upholds_rule fun τ hτ => Ty.fits_closed.binaryRule hτ hfirst.1 hsecond.1).bind fun τ hτ =>
        upholds_ok ⟨hτ, (Context.fits_iff.1 hc).2⟩
    exact Context.fits_iff.2 ⟨(Context.fits_iff.1 hc).1, hfirst.2⟩
  | quote site label snippet body ih =>
    rw [judge_quote]
    -- going under a quote is checked, and so is the stage of the code type
    refine (upholds_context c.quoted).bind fun inside hinside => ?_
    obtain ⟨rfl, hfits⟩ := hinside
    exact (ih hfits).bind fun j _ => (upholds_type _).bind fun τ hτ =>
      upholds_ok ⟨hτ, (Context.fits_iff.1 hc).2⟩
  | escape site kind body ih =>
    rw [judge_escape]
    split
    · -- an escape outside all quotes is refused
      intro j hj
      cases hj
    · refine (upholds_context c.escaped).bind fun outside houtside => ?_
      obtain ⟨rfl, hfits⟩ := houtside
      exact (ih hfits).bind fun j hj => (upholds_rule fun τ hτ => Ty.fits_closed.escapeRule hτ hj.1).bind
        fun τ hτ => upholds_ok ⟨hτ, (Context.fits_iff.1 hc).2⟩
  | run site body ih =>
    rw [judge_run]
    exact (ih hc).bind fun j hj => (upholds_rule fun τ hτ => Ty.fits_closed.runRule hτ hj.1).bind fun τ hτ =>
      upholds_ok ⟨hτ, hj.2⟩
  | lambda site params body ih =>
    rw [judge_lambda]
    -- the types of the parameters have been checked by the rule for written types
    refine (upholds_params params).bind fun types htypes => (ih ?_).bind fun j hj =>
      upholds_ok ⟨Ty.fits_closed.function (List.forall_mem_map.2 htypes) hj.1, (Context.fits_iff.1 hc).2⟩
    rcases Context.fits_iff.1 hc with ⟨hlevel, hscope⟩
    exact Context.fits_iff.2 ⟨hlevel, hscope.extendAll hlevel htypes⟩
  | call site callee args ihf iha =>
    -- the type of a call is the result of its function, whatever the arguments are
    rw [judge_call]
    have hargs : Upholds (fun _ => True) (p.judgeAll .word (fun _ _ j => j) args c : Except Obstacle (List Ty)) :=
      fun _ _ => trivial
    exact (ihf hc).bind fun j hj => hargs.bind fun types _ =>
      (upholds_rule fun τ hτ => Ty.fits_closed.callRule hτ hj.1).bind fun τ hτ =>
        upholds_ok ⟨hτ, (Context.fits_iff.1 hc).2⟩
  | host site name written =>
    rw [judge_host]
    rcases Context.fits_iff.1 hc with ⟨hlevel, hscope⟩
    exact (upholds_resolve written).bind fun τ hτ => upholds_ok ⟨hτ, hscope.extend hlevel hτ name⟩
  | held site index =>
    rw [judge_held]
    intro j hj
    cases hj

/-! ## What is left of a pair -/

section Pairs

variable (p : Prelude) (t : Term) (site outer inner : Site) (label : Option String) (snippet : Bool)

theorem Prelude.checkIn32_quote (h : c.quoted.fits = true) : p.checkIn32 c (.quote site label snippet t) =
    p.checkIn32 c.quoted t >>= fun j => Counting.word.type (j.type.shift 1) >>= fun τ => .ok ⟨τ, c.scope⟩ := by
  rw [checkIn32, checkWith, judge_quote]
  show Counting.word.context c.quoted >>= _ = _
  rw [Counting.word_context, if_pos h]
  rfl

theorem Prelude.checkIn32_quote_of_not_fits (h : ¬ c.quoted.fits = true) :
    p.checkIn32 c (.quote site label snippet t) = .error .exhausted := by
  rw [checkIn32, checkWith, judge_quote]
  show Counting.word.context c.quoted >>= _ = _
  rw [Counting.word_context, if_neg h]
  rfl

/-- A splice is checked by checking its body outside the quote, where it has to be code. -/
theorem Prelude.checkIn32_splice (hlevel : c.level ≠ 0) (h : c.escaped.fits = true) :
    p.checkIn32 c (.escape site .splice t) = p.checkIn32 c.escaped t >>= fun j =>
      if j.type.stage < 1 then .error (.fault (.nonCodeEscape site.id)) else .ok ⟨j.type.shift (-1), c.scope⟩ := by
  rw [checkIn32, checkWith, judge_escape, if_neg hlevel]
  show Counting.word.context c.escaped >>= _ = _
  rw [Counting.word_context, if_pos h]
  refine congrArg (p.checkIn32 c.escaped t >>= ·) (funext fun j => ?_)
  rw [escapeRule]
  split <;> rfl

theorem Prelude.checkIn32_splice_of_not_fits (hlevel : c.level ≠ 0) (h : ¬ c.escaped.fits = true) :
    p.checkIn32 c (.escape site .splice t) = .error .exhausted := by
  rw [checkIn32, checkWith, judge_escape, if_neg hlevel]
  show Counting.word.context c.escaped >>= _ = _
  rw [Counting.word_context, if_neg h]
  rfl

/-- Under a quote, a splice only asks for code. -/
theorem Prelude.checkIn32_quote_splice (hc : c.fits = true) (hquoted : c.quoted.fits = true) :
    p.checkIn32 c (.quote outer label snippet (.escape inner .splice t)) =
      p.checkIn32 c t >>= fun j =>
        if j.type.stage < 1 then .error (.fault (.nonCodeEscape inner.id)) else .ok ⟨j.type, c.scope⟩ := by
  have hlevel : c.quoted.level ≠ 0 := Nat.succ_ne_zero c.level
  have hback := Context.escaped_quoted c
  rw [checkIn32_quote _ _ _ _ _ hquoted, checkIn32_splice _ _ _ hlevel (hback.symm ▸ hc), hback]
  cases hcheck : p.checkIn32 c t with
  | error obstacle => rfl
  | ok j =>
    have hfits := (p.checkIn32_fits hc j hcheck).1
    show (if j.type.stage < 1 then _ else _) >>= _ = if j.type.stage < 1 then _ else _
    split
    · rfl
    · -- the type goes one stage down and up again
      show Counting.word.type ((j.type.shift (-1)).shift 1) >>= _ = _
      rw [Ty.shift_shift, Int.add_left_neg, Ty.shift_zero, Counting.word_type, if_pos hfits]
      rfl

/-- Around a quote, a splice only asks for a type that is not below stage zero, and that can be raised. -/
theorem Prelude.checkIn32_splice_quote (hlevel : c.level ≠ 0) (hc : c.fits = true) (hescaped : c.escaped.fits = true) :
    p.checkIn32 c (.escape outer .splice (.quote inner label snippet t)) =
      p.checkIn32 c t >>= fun j =>
        if j.type.stage = 2147483647 then .error .exhausted
        else if j.type.stage < 0 then .error (.fault (.nonCodeEscape outer.id)) else .ok ⟨j.type, c.scope⟩ := by
  have hback := Context.quoted_escaped hlevel
  rw [checkIn32_splice _ _ _ hlevel hescaped, checkIn32_quote _ _ _ _ _ (hback.symm ▸ hc), hback]
  cases hcheck : p.checkIn32 c t with
  | error obstacle => rfl
  | ok j =>
    have hfits := (p.checkIn32_fits hc j hcheck).1
    have hstage := Ty.fits_stage hfits
    show (Counting.word.type (j.type.shift 1) >>= _) >>= _ = if j.type.stage = 2147483647 then _ else _
    by_cases hlast : j.type.stage = 2147483647
    · -- there is no stage further up
      have hover : ¬ (j.type.shift 1).fits = true := by
        intro hshift
        have := (Ty.fits_stage hshift).2
        rw [Ty.stage_shift] at this
        omega
      rw [Counting.word_type, if_neg hover, if_pos hlast]
      rfl
    · rw [Counting.word_type, if_pos (Ty.fits_shift hfits (by omega) (by omega)), if_neg hlast]
      show (if (j.type.shift 1).stage < 1 then _ else _) = _
      rw [Ty.stage_shift, Ty.shift_shift, Int.add_right_neg, Ty.shift_zero]
      by_cases hbelow : j.type.stage < 0
      · rw [if_pos hbelow, if_pos (by omega)]
      · rw [if_neg hbelow, if_neg (by omega)]

end Pairs

/-! ## Contexts without stages below zero -/

/-- The parameters and the result of a function have no stage below zero, whatever the stage of the function. -/
def Ty.NonNegativeInside : Ty → Prop
  | .base .. => True
  | .arrow params result _ => (∀ param ∈ params, param.NonNegative) ∧ result.NonNegative

theorem Ty.nonNegative_shift {τ : Ty} {amount : Int} :
    (τ.shift amount).NonNegative ↔ 0 ≤ τ.stage + amount ∧ τ.NonNegativeInside := by
  cases τ with
  | base kind stage => simp [shift, Ty.stage, NonNegativeInside]
  | arrow params result stage => simp [shift, Ty.stage, NonNegativeInside]

/-- In a context whose names have stages of words where they are bound, none below zero, no term is below zero. -/
theorem Prelude.stage_nonneg_of_checkIn32 {j : Judgement} (hp : p.NonNegative) (hc : c.fits = true)
    (hbindings : ∀ name b, c.scope.lookup? name = some b →
      0 ≤ b.type.stage + c.level - b.level ∧ b.type.stage + c.level - b.level < 2147483648 ∧
        b.type.NonNegativeInside)
    (h : p.checkIn32 c t = .ok j) : 0 ≤ j.type.stage := by
  have hscope : c.scope.OwnTypes Ty.Sound c.level := by
    intro name b hb
    rcases hbindings name b hb with ⟨hlow, hhigh, hinside⟩
    have hfits := (Context.fits_iff.1 hc).2.lookup hb
    exact ⟨Ty.nonNegative_shift.2 ⟨by omega, hinside⟩, Ty.fits_shift hfits (by omega) (by omega)⟩
  rcases (judge_forgets (fun _ _ _ s => s) .word p t c).exists_run h () with ⟨_, hrun⟩
  have hsound := (narrows_judge Scope.ownTypes_kept hp t hscope ()).of_ok hrun
  exact Ty.nonNegative_kept.nonneg hsound.1.1.1

/-! ## Cancellation -/

/-- **Quote and splice cancel in the checker**, up to what words can hold. In a context of words, `<[e]>` is checked as
`e` is: it has the type of `e` if that is code, is refused at the splice if it is not, and is refused as `e` is
otherwise; names that `e` binds are gone. If the context inside the quote cannot be counted in words, the checker gives
up. The same goes for `[<e>]` inside a quote, with any type of `e` that is not below stage zero and not at the last
stage; below stage zero it is refused at the splice. No type of `e` is below stage zero if the prelude has none, and the
names of the context, of stage `s`, bound at level `b` and seen at level `l`, have stages `s + l - b ≥ 0` of a word
where they are bound and no stage below zero inside function types. -/
theorem quote_and_splice_cancel (p : Prelude) (c : Context) (hc : c.fits = true) (t : Term) (outer inner : Site)
    (label : Option String) (snippet : Bool) :
    (c.quoted.fits = true →
      (∀ j, p.checkIn32 c t = .ok j → 1 ≤ j.type.stage →
        p.checkIn32 c (.quote outer label snippet (.escape inner .splice t)) = .ok ⟨j.type, c.scope⟩) ∧
      (∀ j, p.checkIn32 c t = .ok j → j.type.stage < 1 →
        p.checkIn32 c (.quote outer label snippet (.escape inner .splice t)) =
          .error (.fault (.nonCodeEscape inner.id))) ∧
      ∀ obstacle, p.checkIn32 c t = .error obstacle →
        p.checkIn32 c (.quote outer label snippet (.escape inner .splice t)) = .error obstacle) ∧
    (c.quoted.fits = false →
      p.checkIn32 c (.quote outer label snippet (.escape inner .splice t)) = .error .exhausted) ∧
    (1 ≤ c.level → c.escaped.fits = true →
      (∀ j, p.checkIn32 c t = .ok j → 0 ≤ j.type.stage → j.type.stage < 2147483647 →
        p.checkIn32 c (.escape outer .splice (.quote inner label snippet t)) = .ok ⟨j.type, c.scope⟩) ∧
      (∀ j, p.checkIn32 c t = .ok j → j.type.stage = 2147483647 →
        p.checkIn32 c (.escape outer .splice (.quote inner label snippet t)) = .error .exhausted) ∧
      (∀ j, p.checkIn32 c t = .ok j → j.type.stage < 0 →
        p.checkIn32 c (.escape outer .splice (.quote inner label snippet t)) =
          .error (.fault (.nonCodeEscape outer.id))) ∧
      ∀ obstacle, p.checkIn32 c t = .error obstacle →
        p.checkIn32 c (.escape outer .splice (.quote inner label snippet t)) = .error obstacle) ∧
    (1 ≤ c.level → c.escaped.fits = false →
      p.checkIn32 c (.escape outer .splice (.quote inner label snippet t)) = .error .exhausted) ∧
    (p.NonNegative →
      (∀ name b, c.scope.lookup? name = some b →
        0 ≤ b.type.stage + c.level - b.level ∧ b.type.stage + c.level - b.level < 2147483648 ∧
          b.type.NonNegativeInside) →
      ∀ j, p.checkIn32 c t = .ok j → 0 ≤ j.type.stage) := by
  refine ⟨?_, ?_, ?_, ?_, fun hp hbindings j hj => p.stage_nonneg_of_checkIn32 hp hc hbindings hj⟩
  · -- `<[e]>`: the checker comes to `e` in the context that it started with
    intro hquoted
    rw [p.checkIn32_quote_splice t outer inner label snippet hc hquoted]
    refine ⟨?_, ?_, ?_⟩
    · intro j hj hstage
      rw [hj]
      exact if_neg (by omega)
    · intro j hj hstage
      rw [hj]
      exact if_pos hstage
    · intro obstacle hobstacle
      rw [hobstacle]
      rfl
  · intro hquoted
    exact p.checkIn32_quote_of_not_fits _ outer label snippet (by simp [hquoted])
  · intro hlevel hescaped
    -- `[<e>]`: the quote raises the stage of `e` by one before the splice looks at it
    rw [p.checkIn32_splice_quote t outer inner label snippet (by omega) hc hescaped]
    refine ⟨?_, ?_, ?_, ?_⟩
    · intro j hj hnonneg hstage
      rw [hj]
      exact (if_neg (by omega)).trans (if_neg (by omega))
    · intro j hj hstage
      rw [hj]
      exact if_pos hstage
    · intro j hj hstage
      rw [hj]
      exact (if_neg (by omega)).trans (if_pos hstage)
    · intro obstacle hobstacle
      rw [hobstacle]
      rfl
  · intro hlevel hescaped
    exact p.checkIn32_splice_of_not_fits _ outer (by omega) (by simp [hescaped])

theorem lookup?_extend_empty {new name : String} {b b' : Binding}
    (h : (Scope.empty.extend new b).lookup? name = some b') : b' = b := by
  rw [Scope.lookup?_extend] at h
  split at h
  · exact (Option.some.inj h).symm
  · cases h

/-- `let y = <x>` -/
def quotedUse : Term := .define ⟨0, {}⟩ "y" (.quote ⟨1, {}⟩ none false (.lookup ⟨2, {}⟩ "x"))

/-- Inside a quote, `<[let y = <x>]>` and `[<let y = <x>>]` have the type of `<x>`, and leave no `y` behind. -/
theorem quote_and_splice_cancel_quotedUse :
    Prelude.general.checkIn32 insideQuote quotedUse =
      .ok ⟨.base .int 1, insideQuote.scope.extend "y" ⟨.base .int 1, 1⟩⟩ ∧
    Prelude.general.checkIn32 insideQuote (.quote ⟨3, {}⟩ none false (.escape ⟨4, {}⟩ .splice quotedUse)) =
      .ok ⟨.base .int 1, insideQuote.scope⟩ ∧
    Prelude.general.checkIn32 insideQuote (.escape ⟨3, {}⟩ .splice (.quote ⟨4, {}⟩ none false quotedUse)) =
      .ok ⟨.base .int 1, insideQuote.scope⟩ := by
  have hcheck : Prelude.general.checkIn32 insideQuote quotedUse =
      .ok ⟨.base .int 1, insideQuote.scope.extend "y" ⟨.base .int 1, 1⟩⟩ := by decide +kernel
  have hbindings : ∀ name b, insideQuote.scope.lookup? name = some b →
      0 ≤ b.type.stage + insideQuote.level - b.level ∧
        b.type.stage + insideQuote.level - b.level < 2147483648 ∧ b.type.NonNegativeInside := by
    intro name b hb
    obtain rfl := lookup?_extend_empty hb
    exact ⟨by decide, by decide, trivial⟩
  obtain ⟨hquoted, -, hspliced, -, hstage⟩ :=
    quote_and_splice_cancel Prelude.general insideQuote (by decide) quotedUse ⟨3, {}⟩ ⟨4, {}⟩ none false
  have hnonneg := hstage (Prelude.ofMode_nonNegative .general) hbindings _ hcheck
  exact ⟨hcheck, (hquoted (by decide)).1 _ hcheck (by decide),
    (hspliced (by decide) (by decide)).1 _ hcheck hnonneg (by decide)⟩

/-- A context at the largest level, with `x` bound outside all quotes. -/
def farInside : Context := ⟨Scope.empty.extend "x" ⟨.int, 0⟩, 4294967295⟩

/-- That far above its binding, `x` is one stage below zero, and cannot be spliced after it has been quoted. -/
theorem splice_of_quote_refused :
    farInside.fits = true ∧ farInside.escaped.fits = true ∧ Prelude.general.NonNegative ∧ 1 ≤ farInside.level ∧
    (∀ name b, farInside.scope.lookup? name = some b →
      0 ≤ b.type.stage + farInside.level - b.level ∧ b.type.NonNegativeInside) ∧
    Prelude.general.checkIn32 farInside (.lookup ⟨2, {}⟩ "x") = .ok ⟨.base .int (-1), farInside.scope⟩ ∧
    Prelude.general.checkIn32 farInside
        (.escape ⟨0, {}⟩ .splice (.quote ⟨1, {}⟩ none false (.lookup ⟨2, {}⟩ "x"))) =
      .error (.fault (.nonCodeEscape 0)) := by
  refine ⟨by decide, by decide, Prelude.ofMode_nonNegative .general, by decide, ?_, by decide +kernel,
    by decide +kernel⟩
  intro name b hb
  obtain rfl := lookup?_extend_empty hb
  exact ⟨by decide, trivial⟩

end Multistage
