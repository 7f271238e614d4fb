import Multistage.Eval.Interpreter

/-!
# More fuel

Fuel bounds how deep evaluation goes and nothing else: with more of it an evaluation ends as before, or
goes on where it had to stop. `Eval.Within x y` says this of two computations, and it is kept by whatever
follows them, so the five functions of the evaluator have it from one amount of fuel to the next
(`Eval.more_fuel`).

`Term.EndsWith` is then what a program does, whatever fuel it takes. It comes to an end in at most one way
(`Term.EndsWith.unique`); a program without one does not terminate.
-/

namespace Multistage

namespace Eval

variable {α β : Type}

/-- From any machine, `x` runs out of fuel or does what `y` does. -/
def Within (x y : Eval α) : Prop := ∀ m, (∃ m', x m = .error .outOfFuel m') ∨ x m = y m

theorem Within.refl (x : Eval α) : Within x x := fun _ => .inr rfl

theorem Within.trans {x y z : Eval α} (h : Within x y) (h' : Within y z) : Within x z := by
  intro m
  rcases h m with hstop | heq
  · exact .inl hstop
  · rw [heq]
    exact h' m

theorem within_outOfFuel (y : Eval α) : Within (throw .outOfFuel) y := fun m => .inl ⟨m, rfl⟩

/-- More fuel for both steps does not change the result of the two. -/
theorem Within.bind {x y : Eval α} {f g : α → Eval β} (h : Within x y) (hf : ∀ a, Within (f a) (g a)) :
    Within (x >>= f) (y >>= g) := by
  intro m
  change (∃ m', EStateM.bind x f m = _) ∨ EStateM.bind x f m = EStateM.bind y g m
  unfold EStateM.bind
  rcases h m with ⟨m', hstop⟩ | heq
  · rw [hstop]
    exact .inl ⟨m', rfl⟩
  · rw [heq]
    cases y m with
    | ok a m₁ => exact hf a m₁
    | error stop m₁ => exact .inr rfl

/-- The five functions of the evaluator do with some more fuel what they do with `fuel`. -/
structure MoreFuel (fuel : Nat) : Prop where
  eval : ∀ t scope held, Within (eval fuel t scope held) (Eval.eval (fuel + 1) t scope held)
  evalAll : ∀ ts scope held, Within (evalAll fuel ts scope held) (Eval.evalAll (fuel + 1) ts scope held)
  apply : ∀ f args, Within (apply fuel f args) (Eval.apply (fuel + 1) f args)
  build : ∀ t depth scope held kept,
    Within (build fuel t depth scope held kept) (Eval.build (fuel + 1) t depth scope held kept)
  buildAll : ∀ ts depth scope held kept,
    Within (buildAll fuel ts depth scope held kept) (Eval.buildAll (fuel + 1) ts depth scope held kept)

section Step

variable {fuel : Nat} {scope : Scope Slot} {held kept : List Value}

/-- With more fuel an evaluation that ends gives the same. -/
theorem within_eval (ih : MoreFuel fuel) (t : Term) :
    Within (eval (fuel + 1) t scope held) (eval (fuel + 2) t scope held) := by
  -- with more fuel the parts do the same, and the rest of a construct takes none
  cases t with
  | literal | lookup | escape | lambda | host | held => exact .refl _
  | seq site l r =>
    rw [eval, eval]
    exact (ih.eval l scope held).bind fun r₁ => ih.eval r r₁.2 held
  | define site name value =>
    rw [eval, eval]
    exact (ih.eval value scope held).bind fun _ => .refl _
  | assign site name value =>
    rw [eval, eval]
    exact (ih.eval value scope held).bind fun _ => .refl _
  | unary site op operand =>
    rw [eval, eval]
    exact (ih.eval operand scope held).bind fun _ => .refl _
  | binary site op l r =>
    rw [eval, eval]
    exact (ih.eval l scope held).bind fun r₁ => (ih.eval r r₁.2 held).bind fun _ => .refl _
  | quote site label snippet body =>
    rw [eval, eval]
    exact (ih.build body 0 scope held []).bind fun _ => .refl _
  | run site body =>
    rw [eval, eval]
    refine (ih.eval body scope held).bind fun result => ?_
    rcases result with ⟨v, scope₁⟩
    cases v with
    | code body' kept => exact (ih.eval body' {} kept).bind fun _ => .refl _
    | _ => exact .refl _
  | call site callee args =>
    rw [eval, eval]
    exact (ih.eval callee scope held).bind fun f => (ih.evalAll args scope held).bind fun vs =>
      (ih.apply f.1 vs).bind fun _ => .refl _

theorem within_evalAll (ih : MoreFuel fuel) (ts : List Term) :
    Within (evalAll (fuel + 1) ts scope held) (evalAll (fuel + 2) ts scope held) := by
  cases ts with
  | nil => exact .refl _
  | cons t rest =>
    rw [evalAll, evalAll]
    exact (ih.eval t scope held).bind fun _ => (ih.evalAll rest scope held).bind fun _ => .refl _

/-- The same goes for applying a function. -/
theorem within_apply (ih : MoreFuel fuel) (f : Value) (args : List Value) :
    Within (apply (fuel + 1) f args) (apply (fuel + 2) f args) := by
  cases f with
  | closure serial params body scope held =>
    rw [apply, apply]
    split
    · exact .refl _
    · exact (Within.refl _).bind fun slots =>
        (ih.eval body (scope.extendAll (params.zip slots)) held).bind fun _ => .refl _
  | _ => exact .refl _

/-- The same goes for building code. -/
theorem within_build (ih : MoreFuel fuel) (t : Term) (depth : Nat) :
    Within (build (fuel + 1) t depth scope held kept) (build (fuel + 2) t depth scope held kept) := by
  rw [build.eq_def, build.eq_def (fuel + 2)]
  dsimp only
  split
  · exact (ih.build _ (depth + 1) scope held kept).bind fun _ => .refl _
  · split
    · exact (ih.build _ _ scope held kept).bind fun _ => .refl _
    · exact (ih.eval _ scope held).bind fun _ => .refl _
  · exact (ih.buildAll t.children depth scope held kept).bind fun _ => .refl _

theorem within_buildAll (ih : MoreFuel fuel) (ts : List Term) (depth : Nat) :
    Within (buildAll (fuel + 1) ts depth scope held kept) (buildAll (fuel + 2) ts depth scope held kept) := by
  cases ts with
  | nil => exact .refl _
  | cons t rest =>
    rw [buildAll, buildAll]
    exact (ih.build t depth scope held kept).bind fun r =>
      (ih.buildAll rest depth scope held r.2).bind fun _ => .refl _

end Step

theorem more_fuel (fuel : Nat) : MoreFuel fuel := by
  induction fuel with
  | zero =>
    constructor <;> intros <;> exact within_outOfFuel _
  | succ fuel ih =>
    exact ⟨fun t _ _ => within_eval ih t, fun ts _ _ => within_evalAll ih ts, within_apply ih,
      fun t depth _ _ _ => within_build ih t depth, fun ts depth _ _ _ => within_buildAll ih ts depth⟩

theorem Within.ok {x y : Eval α} {m m' : Machine} {a : α} (h : Within x y) (hx : x m = .ok a m') :
    y m = .ok a m' := by
  rcases h m with ⟨m₁, hstop⟩ | heq
  · rw [hx] at hstop
    cases hstop
  · exact heq.symm.trans hx

/-- What one more step of fuel keeps, any more of it keeps. -/
theorem within_of_le {f : Nat → Eval α} (hf : ∀ fuel, Within (f fuel) (f (fuel + 1))) {fuel fuel' : Nat}
    (hle : fuel ≤ fuel') : Within (f fuel) (f fuel') := by
  induction hle with
  | refl => exact .refl _
  | step _ ih => exact ih.trans (hf _)

theorem build_within (t : Term) (depth : Nat) (scope : Scope Slot) (held kept : List Value)
    {fuel fuel' : Nat} (hle : fuel ≤ fuel') :
    Within (build fuel t depth scope held kept) (build fuel' t depth scope held kept) :=
  within_of_le (fun fuel => (more_fuel fuel).build t depth scope held kept) hle

theorem buildAll_within (ts : List Term) (depth : Nat) (scope : Scope Slot) (held kept : List Value)
    {fuel fuel' : Nat} (hle : fuel ≤ fuel') :
    Within (buildAll fuel ts depth scope held kept) (buildAll fuel' ts depth scope held kept) :=
  within_of_le (fun fuel => (more_fuel fuel).buildAll ts depth scope held kept) hle

end Eval

theorem interpret_within (t : Term) {fuel fuel' : Nat} (hle : fuel ≤ fuel') :
    Eval.Within (interpret fuel t) (interpret fuel' t) := by
  refine Eval.within_of_le (f := fun fuel => interpret fuel t) (fun fuel => ?_) hle
  exact ((Eval.more_fuel fuel).eval t {} []).bind fun _ => .refl _

/-! ## What a program does -/

/-- With enough fuel the program ends with a value or a failure, and leaves the machine, with all that it
has printed. -/
def Term.EndsWith (t : Term) (outcome : EStateM.Result Stop Machine Value) : Prop :=
  (∀ m, outcome ≠ .error .outOfFuel m) ∧ ∃ fuel, interpret fuel t {} = outcome

namespace Term.EndsWith

variable {t : Term} {outcome outcome' : EStateM.Result Stop Machine Value}

theorem of_ok {fuel : Nat} {v : Value} {m : Machine} (h : interpret fuel t {} = .ok v m) :
    t.EndsWith (.ok v m) := by
  refine ⟨?_, fuel, h⟩
  intro m' hstop
  cases hstop

/-- What a program ends with does not change with more fuel. -/
theorem from_on (h : t.EndsWith outcome) : ∃ enough, ∀ fuel, enough ≤ fuel → interpret fuel t {} = outcome := by
  rcases h with ⟨hended, enough, hrun⟩
  refine ⟨enough, fun fuel hle => ?_⟩
  rcases interpret_within t hle {} with ⟨m, hstop⟩ | heq
  · exact absurd (hrun.symm.trans hstop) (hended m)
  · exact heq.symm.trans hrun

theorem unique (h : t.EndsWith outcome) (h' : t.EndsWith outcome') : outcome = outcome' := by
  rcases h.from_on with ⟨enough, hrun⟩
  rcases h'.from_on with ⟨enough', hrun'⟩
  have hboth := hrun (max enough enough') (Nat.le_max_left _ _)
  exact hboth.symm.trans (hrun' _ (Nat.le_max_right _ _))

end Term.EndsWith

end Multistage
