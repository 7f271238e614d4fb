import Multistage.Proofs.CodeChecking
import Multistage.Proofs.TypeSoundness

/-!
# Generated code

A program with a type of code generates code of that type: if evaluation ends with code that carries no
values, the checker accepts the code, one stage further down. As for evaluation, names mean what they mean
where the code has ended up, so that the program must bind each loose name at one type in its quotes, and
a stray name may turn out not to be bound. The checker has names of all quotes in one scope. So code must
not be spliced where a loose name is bound in a quote further in, and an assignment of a loose name may
turn out to stand further in than the binding.

Main statements: `generated_code_checks` and `generated_code_meets_other_scopes`.
-/

namespace Multistage

/-- Code that carries no values is typed on its own. -/
theorem Inhabits.typed_code {S : Ledger} {σ : List Ty} {body : Term} {τ : Ty}
    (h : Inhabits S σ (.code body []) τ) : ∃ B, HasType S .alone [] body (τ.shift (-1)) B := by
  cases h with
  | @code _ _ B Φ α hbody _ _ hlen _ =>
    obtain rfl : Φ = [] := List.length_eq_zero_iff.1 hlen.symm
    refine ⟨B, ?_⟩
    rw [Ty.shift_shift, Int.add_right_neg, Ty.shift_zero]
    exact hbody

/-- How the checker may judge generated code: it finds the type, one of the `stray` names that is not
bound, or an assignment of one of the `targets` in a quote further in than the binding. -/
inductive ChecksWell (stray targets : List String) (τ : Ty) : Except Fault Ty → Prop
  | type : ChecksWell stray targets τ (.ok τ)
  | unbound {node name} : name ∈ stray → ChecksWell stray targets τ (.error (.undefinedVariable node name))
  | misplaced {node name} :
    name ∈ targets → ChecksWell stray targets τ (.error (.stageMismatch node (.assignment name)))

/-- **Generated code is well typed**, if the program is evaluated with all bindings that the checker has
found, binds each loose name at one type in its quotes, and splices no code where a loose name is bound in
a quote further in. -/
theorem generated_code_checks {t : Term} {supply : Supply} {e : Elaboration} {τ : Ty} {q : Program}
    (h : Prepared t supply e τ q) (hmisled : q.root.misledUses = [])
    (hagree : LooseNamesAgree .checker e.table q.root) (hhidden : q.root.hiddenNames = [])
    {fuel : Nat} {body : Term} {m : Machine} (hrun : interpret fuel q.root {} = .ok (.code body []) m) :
    ChecksWell (q.root.strayNames .checker) (q.root.looseTargets .checker) (τ.shift (-1))
      (Prelude.general.check body) := by
  have hsafe := h.safe hmisled hagree (fun _ => hhidden) fuel
  rcases hsafe.ok hrun with ⟨σ, -, -, hcode⟩
  rcases hcode.typed_code with ⟨B, hbody⟩
  -- the code is checked from where nothing is in scope
  have hcheck : hagree.ledger.Accepts (· = τ.shift (-1)) (Prelude.general.check body) := by
    rw [Prelude.check]
    refine (HasType.accepted rfl body hbody .start).bind fun j hj => ?_
    exact .ok hj.type
  generalize Prelude.general.check body = result at hcheck
  cases hcheck with
  | ok htype =>
    rw [htype]
    exact .type
  | unbound hstray => exact .unbound hstray
  | misplaced htarget => exact .misplaced htarget

/-- `let twice = fun (c : <Int>) < [c] + [c] >; < let x = (let z = 5); < %[[ twice(< x >) ]] > >`: open code
is spliced two quotes deep, at the level that binds its name, and the checker keeps `z`. -/
def twiceInside : Term :=
  .seq ⟨0, {}⟩
    (.define ⟨1, {}⟩ "twice" (.lambda ⟨2, {}⟩ [⟨3, "c", some (.code (.named "Int"))⟩]
      (.quote ⟨4, {}⟩ none false (.binary ⟨5, {}⟩ .add
        (.escape ⟨6, {}⟩ .splice (.lookup ⟨7, {}⟩ "c")) (.escape ⟨8, {}⟩ .splice (.lookup ⟨9, {}⟩ "c"))))))
    (.quote ⟨10, {}⟩ none false (.seq ⟨11, {}⟩
      (.define ⟨12, {}⟩ "x" (.define ⟨13, {}⟩ "z" (.literal ⟨14, {}⟩ (.int 5))))
      (.quote ⟨15, {}⟩ none false (.escape ⟨16, {}⟩ .persist (.escape ⟨17, {}⟩ .splice
        (.call ⟨18, {}⟩ (.lookup ⟨19, {}⟩ "twice") [.quote ⟨20, {}⟩ none false (.lookup ⟨21, {}⟩ "x")]))))))

/-- Code of code in which `x` is left open checks at the promised type. -/
theorem generated_code_checks_twiceInside : ∃ e q body m,
    Prepared twiceInside ⟨22⟩ e (.base .int 2) q ∧ q.root.misledUses = [] ∧
      LooseNamesAgree .checker e.table q.root ∧ q.root.hiddenNames = [] ∧
      interpret 30 q.root {} = .ok (.code body []) m ∧ q.root.looseNames .checker = ["x"] ∧
      ChecksWell (q.root.strayNames .checker) (q.root.looseTargets .checker) (.base .int 1)
        (Prelude.general.check body) := by
  obtain ⟨e, q, body, m, h, hmisled, hagree, hhidden, hrun, hloose⟩ : ∃ e q body m,
      Prepared twiceInside ⟨22⟩ e (.base .int 2) q ∧ q.root.misledUses = [] ∧
        LooseNamesAgree .checker e.table q.root ∧ q.root.hiddenNames = [] ∧
        interpret 30 q.root {} = .ok (.code body []) m ∧ q.root.looseNames .checker = ["x"] := by
    exact ⟨_, _, _, _, ⟨by decide, Term.ids_lt_of_all rfl, by decide, rfl, rfl, rfl⟩, rfl, by decide, rfl,
      rfl, rfl⟩
  exact ⟨e, q, body, m, h, hmisled, hagree, hhidden, hrun, hloose,
    generated_code_checks h hmisled hagree hhidden hrun⟩

/-! ## Code in other scopes -/

/-- `let c = < 0 >; < let x = 5; [ c = < x > ] >; c`: the code leaves the quote that binds its name. -/
def returnedOpen : Term :=
  .seq ⟨0, {}⟩ (.define ⟨1, {}⟩ "c" (.quote ⟨2, {}⟩ none false (.literal ⟨3, {}⟩ (.int 0))))
    (.seq ⟨4, {}⟩
      (.quote ⟨5, {}⟩ none false (.seq ⟨6, {}⟩ (.define ⟨7, {}⟩ "x" (.literal ⟨8, {}⟩ (.int 5)))
        (.escape ⟨9, {}⟩ .splice (.assign ⟨10, {}⟩ "c" (.quote ⟨11, {}⟩ none false
          (.lookup ⟨12, {}⟩ "x"))))))
      (.lookup ⟨13, {}⟩ "c"))

/-- `let c = < float(1) >; < let float = 5; [c] >`: the code meets its name at another type. -/
def returnedCaptured : Term :=
  .seq ⟨0, {}⟩
    (.define ⟨1, {}⟩ "c" (.quote ⟨2, {}⟩ none false
      (.call ⟨3, {}⟩ (.lookup ⟨4, {}⟩ "float") [.literal ⟨5, {}⟩ (.int 1)])))
    (.quote ⟨6, {}⟩ none false (.seq ⟨7, {}⟩
      (.define ⟨8, {}⟩ "float" (.literal ⟨9, {}⟩ (.int 5)))
      (.escape ⟨10, {}⟩ .splice (.lookup ⟨11, {}⟩ "c"))))

/-- `let c = < 0 >; < let x = 5; [ c = < x > ] >; < < let x = 2; %[[c]] > >`: the checker finds the `x` of
the inner quote for a use outside it. -/
def returnedInner : Term :=
  .seq ⟨0, {}⟩ (.define ⟨1, {}⟩ "c" (.quote ⟨2, {}⟩ none false (.literal ⟨3, {}⟩ (.int 0))))
    (.seq ⟨4, {}⟩
      (.quote ⟨5, {}⟩ none false (.seq ⟨6, {}⟩ (.define ⟨7, {}⟩ "x" (.literal ⟨8, {}⟩ (.int 5)))
        (.escape ⟨9, {}⟩ .splice (.assign ⟨10, {}⟩ "c" (.quote ⟨11, {}⟩ none false
          (.lookup ⟨12, {}⟩ "x"))))))
      (.quote ⟨13, {}⟩ none false (.quote ⟨14, {}⟩ none false (.seq ⟨15, {}⟩
        (.define ⟨16, {}⟩ "x" (.literal ⟨17, {}⟩ (.int 2)))
        (.escape ⟨18, {}⟩ .persist (.escape ⟨19, {}⟩ .splice (.lookup ⟨20, {}⟩ "c")))))))

/-- `let c = << 0 >>; << let x = 7; %[%[ c = << x = 2 >> ]] >>; < let x = 1; [c] >`: the checker finds the `x`
of the outer quote for an assignment in the inner one. -/
def returnedOuter : Term :=
  .seq ⟨0, {}⟩
    (.define ⟨1, {}⟩ "c" (.quote ⟨2, {}⟩ none false (.quote ⟨3, {}⟩ none false
      (.literal ⟨4, {}⟩ (.int 0)))))
    (.seq ⟨5, {}⟩
      (.quote ⟨6, {}⟩ none false (.quote ⟨7, {}⟩ none false (.seq ⟨8, {}⟩
        (.define ⟨9, {}⟩ "x" (.literal ⟨10, {}⟩ (.int 7)))
        (.escape ⟨11, {}⟩ .persist (.escape ⟨12, {}⟩ .persist (.assign ⟨13, {}⟩ "c"
          (.quote ⟨14, {}⟩ none false (.quote ⟨15, {}⟩ none false
            (.assign ⟨16, {}⟩ "x" (.literal ⟨17, {}⟩ (.int 2)))))))))))
      (.quote ⟨18, {}⟩ none false (.seq ⟨19, {}⟩
        (.define ⟨20, {}⟩ "x" (.literal ⟨21, {}⟩ (.int 1)))
        (.escape ⟨22, {}⟩ .splice (.lookup ⟨23, {}⟩ "c")))))

/-- A program of a type generates code that carries no values, with a result of checking the code. -/
def Generates (t : Term) (τ : Ty) (result : Except Fault Ty) : Prop :=
  ∃ supply e q fuel body m, Prepared t supply e τ q ∧ interpret fuel q.root {} = .ok (.code body []) m ∧
    Prelude.general.check body = result

/-- Checked programs can generate code that uses an unbound name, that has no type, that has another type
than the program promises, or that assigns a name of another stage. -/
theorem generated_code_meets_other_scopes :
    Generates returnedOpen (.base .int 1) (.error (.undefinedVariable 12 "x")) ∧
    Generates returnedCaptured (.base .float 1) (.error (.typeMismatch 3 (.notFunction .int))) ∧
    Generates returnedInner (.base .int 2) (.ok (.base .int 2)) ∧
    Generates returnedOuter (.base .int 2) (.error (.stageMismatch 16 (.assignment "x"))) := by
  refine ⟨⟨⟨30⟩, _, _, 30, _, _, ⟨by decide, Term.ids_lt_of_all rfl, by decide, rfl, rfl, rfl⟩, rfl, rfl⟩,
    ⟨⟨30⟩, _, _, 30, _, _, ⟨by decide, Term.ids_lt_of_all rfl, by decide, rfl, rfl, rfl⟩, rfl, rfl⟩,
    ⟨⟨30⟩, _, _, 30, _, _, ⟨by decide, Term.ids_lt_of_all rfl, by decide, rfl, rfl, rfl⟩, rfl, rfl⟩,
    ⟨⟨30⟩, _, _, 30, _, _, ⟨by decide, Term.ids_lt_of_all rfl, by decide, rfl, rfl, rfl⟩, rfl, rfl⟩⟩

end Multistage
