import Multistage.Proofs.OwnLevels
import Multistage.Proofs.Pointwise

/-!
# Stages of types

Inside a quote the names from outside it have types at stages below zero. What a term itself has as its
type never does: a type is `Proper` if neither it nor the result of a function in it has a stage below
zero, the types and intrinsics of both modes are proper, and every typing rule leads from proper types to
proper types. The rules do so for every property that is `Ty.Closed`, and those that move stages up for every
one that is `Ty.Kept`. For a name this rests on its type being
proper where the name is bound, which is what `Scope.Proper` says of all names in scope.

Main statement: `Judged.proper`.
-/

namespace Multistage

open Term

variable {p : Prelude} {τ : Ty}

/-! ## What the rules accept -/

/-- A negation has the type of its operand. -/
theorem unaryRule_eq_ok {node : NodeId} {α : Ty} (h : unaryRule node α = .ok τ) : α = τ := by
  unfold unaryRule at h
  split at h
  · cases h
  · split at h
    · exact Except.ok.inj h
    · cases h

/-- Operands are numbers of stage zero, and the result is a whole number only if both are. -/
theorem numericRule_eq_ok {node : NodeId} {α β : Ty} (h : numericRule node α β = .ok τ) :
    (α.stage = 0 ∧ α.isNumeric = true) ∧ (β.stage = 0 ∧ β.isNumeric = true) ∧
      τ = if α = .int ∧ β = .int then .int else .float := by
  unfold numericRule at h
  split at h
  · cases h
  · next hstages =>
    rcases not_or.1 hstages with ⟨hα, hβ⟩
    rw [Decidable.not_not] at hα hβ
    split at h
    · cases h
      cases hα
      cases hβ
      exact ⟨⟨rfl, rfl⟩, ⟨rfl, rfl⟩, rfl⟩
    · next hints =>
      split at h
      · next hnumeric =>
        cases h
        rw [Bool.and_eq_true] at hnumeric
        refine ⟨⟨hα, hnumeric.1⟩, ⟨hβ, hnumeric.2⟩, (if_neg ?_).symm⟩
        rintro ⟨rfl, rfl⟩
        exact hints 0 0 rfl rfl
      · cases h

/-- Arguments that are accepted have the types of the parameters. -/
theorem argumentRule_eq_ok {node : NodeId} {params args : List Ty}
    (h : argumentRule node params args = .ok ()) (hlen : params.length = args.length) :
    params = args := by
  induction params generalizing args with
  | nil => exact (List.length_eq_zero_iff.1 hlen.symm).symm
  | cons param params ih =>
    cases args with
    | nil => cases hlen
    | cons arg args =>
      rw [argumentRule] at h
      split at h
      · next heq => rw [heq, ih h (Nat.succ.inj hlen)]
      · cases h

/-- Only a function of stage 0 with the types of the arguments can be called. -/
theorem callRule_eq_ok {node : NodeId} {α : Ty} {args : List Ty} (h : callRule node α args = .ok τ) :
    α = .function args τ := by
  unfold callRule at h
  split at h
  · cases h
  · next hstage =>
    rw [Decidable.not_not] at hstage
    cases α with
    | base => cases h
    | arrow params result stage =>
      dsimp only at h
      split at h
      · cases h
      · next hlen =>
        rw [Decidable.not_not] at hlen
        cases hrule : argumentRule node params args with
        | error fault =>
          rw [hrule] at h
          cases h
        | ok _ =>
          rw [hrule] at h
          cases h
          cases hstage
          rw [argumentRule_eq_ok hrule hlen]
          rfl

/-- An escape that is no persist escape inlines code. -/
theorem escapeRule_eq_ok {node : NodeId} {kind : EscapeKind} {α : Ty}
    (h : escapeRule node kind α = .ok τ) (hkind : kind ≠ .persist) :
    0 < α.stage ∧ α.shift (-1) = τ := by
  have hcode : (if α.stage < 1 then .error (.nonCodeEscape node) else .ok (α.shift (-1))) =
      (.ok τ : Except Fault Ty) := by
    cases kind with
    | persist => exact absurd rfl hkind
    | splice | snippet => exact h
  split at hcode
  · cases hcode
  · next hstage => exact ⟨by omega, Except.ok.inj hcode⟩

/-- Arithmetic by component has the type of an operand. -/
theorem componentRule?_eq_some {op : BinaryOp} {α β : Ty} (h : componentRule? op α β = some τ) :
    τ = α ∨ τ = β := by
  unfold componentRule? at h
  split at h
  · split at h
    · exact .inl (Option.some.inj h).symm
    · split at h
      · exact .inr (Option.some.inj h).symm
      · cases h
  · split at h
    · exact .inr (Option.some.inj h).symm
    · cases h
  · split at h
    · exact .inl (Option.some.inj h).symm
    · cases h
  · cases h

/-- An unbound name that the checker accepts is an intrinsic. -/
theorem lookupRule_of_none {c : Context} {name : String} {node : NodeId}
    (hnone : c.scope.lookup? name = none) (h : p.lookupRule c node name = .ok τ) :
    p.intrinsics.get? name = some τ := by
  rw [Prelude.lookupRule_unbound hnone] at h
  split at h
  · next type htype =>
    cases h
    exact htype
  · cases h

/-! ## Stages of types -/

/-- A type, and the results of functions in it, have no stage below zero. -/
def Ty.Proper : Ty → Prop
  | .base _ stage => 0 ≤ stage
  | .arrow _ result stage => 0 ≤ stage ∧ result.Proper

namespace Ty.Proper

variable {τ : Ty}

theorem stage_nonneg (h : τ.Proper) : 0 ≤ τ.stage := by
  cases τ with
  | base kind stage => exact h
  | arrow params result stage => exact h.1

/-- Inside a quote or an escape names have the types that they have where they are bound. -/
theorem shift (h : τ.Proper) {amount : Int} (hstage : 0 ≤ τ.stage + amount) :
    (τ.shift amount).Proper := by
  cases τ with
  | base kind stage => exact hstage
  | arrow params result stage => exact ⟨hstage, h.2⟩

end Ty.Proper

/-- The types and intrinsics of a prelude have no stage below zero. -/
structure Prelude.Proper (p : Prelude) : Prop where
  types : ∀ e ∈ p.types, e.2.Proper
  intrinsics : ∀ e ∈ p.intrinsics, e.2.Proper

theorem Prelude.general_proper : general.Proper := by
  constructor <;>
    simp [general, Ty.Proper, Ty.function, Ty.int, Ty.float, Ty.string, Ty.void]

theorem Prelude.shader_proper : shader.Proper := by
  constructor <;>
    simp [shader, general, Ty.Proper, Ty.function, Ty.int, Ty.float, Ty.string, Ty.void, Ty.prim]

theorem Prelude.ofMode_proper (mode : Mode) : (ofMode mode).Proper := by
  cases mode with
  | general => exact general_proper
  | shader => exact shader_proper

theorem Prelude.Proper.type (hp : p.Proper) {name : String} {τ : Ty} (h : p.types.get? name = some τ) :
    τ.Proper :=
  hp.types _ (Scope.mem_of_newest? h)

theorem Prelude.Proper.intrinsic (hp : p.Proper) {name : String} {τ : Ty}
    (h : p.intrinsics.get? name = some τ) : τ.Proper :=
  hp.intrinsics _ (Scope.mem_of_newest? h)

/-! ## Properties that the rules keep -/

/-- A property of types that holds of base types of stage 0 and of functions between types that have it, and
passes to the results of functions and from code to what the code gives. -/
structure Ty.Closed (P : Ty → Prop) : Prop where
  base : ∀ kind, P (.base kind 0)
  lower : ∀ {τ}, P τ → 0 < τ.stage → P (τ.shift (-1))
  function : ∀ {params result}, (∀ param ∈ params, P param) → P result → P (.function params result)
  result : ∀ {params result}, P (.function params result) → P result

/-- A closed property that says no more about the stage of a type than that it is not below zero. -/
structure Ty.Kept (P : Ty → Prop) : Prop extends Ty.Closed P where
  nonneg : ∀ {τ}, P τ → 0 ≤ τ.stage
  shift : ∀ {τ amount}, P τ → 0 ≤ τ.stage + amount → P (τ.shift amount)
  lower h hcode := shift h (by omega)

/-- All rules keep types proper. -/
theorem Ty.proper_kept : Ty.Kept Ty.Proper where
  base _ := Int.le_refl 0
  nonneg h := h.stage_nonneg
  shift h hstage := h.shift hstage
  function _ h := ⟨Int.le_refl 0, h⟩
  result h := h.2

/-- Two properties that rules keep are kept together. -/
theorem Ty.Closed.and {P Q : Ty → Prop} (hP : Ty.Closed P) (hQ : Ty.Closed Q) :
    Ty.Closed fun τ => P τ ∧ Q τ where
  base kind := ⟨hP.base kind, hQ.base kind⟩
  lower h hcode := ⟨hP.lower h.1 hcode, hQ.lower h.2 hcode⟩
  function hparams hresult :=
    ⟨hP.function (fun τ hτ => (hparams τ hτ).1) hresult.1, hQ.function (fun τ hτ => (hparams τ hτ).2) hresult.2⟩
  result h := ⟨hP.result h.1, hQ.result h.2⟩

theorem Ty.Closed.literal {P : Ty → Prop} (hP : Ty.Closed P) (value : Literal) : P value.type := by
  cases value <;> exact hP.base _

namespace Ty.Kept

variable {P : Ty → Prop}

/-- The type of a quote. -/
theorem quote (hP : Ty.Kept P) {τ : Ty} (h : P τ) : P (τ.shift 1) := by
  have := hP.nonneg h
  exact hP.shift h (by omega)

mutual
/-- Written types have the property if the named ones do. -/
theorem resolve (hP : Ty.Kept P) (htypes : ∀ {name τ}, p.types.get? name = some τ → P τ) {node : NodeId}
    (written : TypeExpr) {τ : Ty} (h : p.resolve node written = .ok τ) : P τ := by
  match written with
  | .named name =>
    rw [Prelude.resolve_named] at h
    split at h
    · next type htype =>
      cases h
      exact htypes htype
    · cases h
  | .code inner =>
    rw [Prelude.resolve_code] at h
    rcases Except.bind_eq_ok.1 h with ⟨type, htype, hτ⟩
    cases hτ
    exact hP.quote (hP.resolve htypes inner htype)
  | .arrow params result =>
    rw [Prelude.resolve_arrow] at h
    rcases Except.bind_eq_ok.1 h with ⟨types, hparams, h₁⟩
    rcases Except.bind_eq_ok.1 h₁ with ⟨type, htype, hτ⟩
    cases hτ
    exact hP.function (hP.resolveAll htypes params hparams) (hP.resolve htypes result htype)

/-- Written types have a property that the named types have and all constructors keep. -/
theorem resolveAll (hP : Ty.Kept P) (htypes : ∀ {name τ}, p.types.get? name = some τ → P τ) {node : NodeId}
    (written : List TypeExpr) {types : List Ty} (h : p.resolveAll node written = .ok types) :
    ∀ τ ∈ types, P τ := by
  match written with
  | [] =>
    cases h
    intro τ hτ
    cases hτ
  | first :: rest =>
    rw [Prelude.resolveAll_cons] at h
    rcases Except.bind_eq_ok.1 h with ⟨type, htype, h₁⟩
    rcases Except.bind_eq_ok.1 h₁ with ⟨others, hothers, hτ⟩
    cases hτ
    exact List.forall_mem_cons.2 ⟨hP.resolve htypes first htype, hP.resolveAll htypes rest hothers⟩
end

/-- So have the types of parameters. -/
theorem paramRule (hP : Ty.Kept P) (htypes : ∀ {name τ}, p.types.get? name = some τ → P τ) {node : NodeId}
    {params : List Param} {bound : List (String × Ty)} (h : p.paramRule node params = .ok bound) :
    ∀ b ∈ bound, P b.2 := by
  intro b hb
  rcases exists_of_forall₂ (mapM_eq_ok.1 h).flip hb with ⟨param, -, hparam⟩
  split at hparam
  · rcases Except.bind_eq_ok.1 hparam with ⟨type, htype, hτ⟩
    cases hτ
    exact hP.resolve htypes _ htype
  · cases hparam
    exact hP.base _

end Ty.Kept

namespace Ty.Closed

variable {P : Ty → Prop} (hP : Ty.Closed P)

include hP

theorem numericRule {node : NodeId} {α β : Ty} (h : numericRule node α β = .ok τ) : P τ := by
  rcases numericRule_eq_ok h with ⟨-, -, rfl⟩
  split <;> exact hP.base _

/-- Arithmetic has a number as its type, or the type of an operand. -/
theorem binaryRule {mode : Mode} {node : NodeId} {op : BinaryOp} {α β : Ty}
    (h : binaryRule mode node op α β = .ok τ) (hα : P α) (hβ : P β) : P τ := by
  cases mode with
  | general => exact hP.numericRule h
  | shader =>
    simp only [Multistage.binaryRule, shaderRule] at h
    split at h
    · exact hP.numericRule h
    · split at h
      · cases h
      · split at h
        · next type htype =>
          cases h
          rcases componentRule?_eq_some htype with rfl | rfl
          · exact hα
          · exact hβ
        · cases h

/-- The type of an escape is that of its body, one stage down or as it is. -/
theorem escapeRule {node : NodeId} {kind : EscapeKind} {α : Ty} (h : escapeRule node kind α = .ok τ)
    (hα : P α) : P τ := by
  by_cases hkind : kind = .persist
  · subst hkind
    cases h
    exact hα
  · rcases escapeRule_eq_ok h hkind with ⟨hstage, rfl⟩
    exact hP.lower hα hstage

/-- The type of a run is that of its body, one stage down. -/
theorem runRule {node : NodeId} {α : Ty} (h : runRule node α = .ok τ) (hα : P α) : P τ := by
  unfold Multistage.runRule at h
  split at h
  · next hcode =>
    cases h
    exact hP.lower hα (by simpa [Ty.isCode] using hcode)
  · cases h

theorem callRule {node : NodeId} {α : Ty} {args : List Ty} (h : callRule node α args = .ok τ) (hα : P α) :
    P τ := by
  cases callRule_eq_ok h
  exact hP.result hα

end Ty.Closed

/-! ## Scopes -/

/-- The type of a name at the level where it is bound, read off its binding at another level. -/
def Binding.own (b : Binding) (level : Nat) : Ty := b.type.shift (level - b.level)

@[simp] theorem Binding.own_self (τ : Ty) (level : Nat) : (⟨τ, level⟩ : Binding).own level = τ := by
  simp [own]

/-- Inside a quote or an escape a name is bound as outside, but for the stage of its type. -/
theorem Scope.lookup?_moved {scope : Scope Binding} {amount : Int} {level level' : Nat} {name : String}
    {b : Binding} (hlevel : (level' : Int) = level - amount)
    (h : (scope.shift amount).lookup? name = some b) :
    ∃ b', scope.lookup? name = some b' ∧ b.level = b'.level ∧ b.own level' = b'.own level := by
  rw [Scope.lookup?_shift] at h
  rcases Option.map_eq_some_iff.1 h with ⟨b', hb', rfl⟩
  refine ⟨b', hb', rfl, ?_⟩
  simp only [Binding.own, Binding.shift, Ty.shift_shift, hlevel]
  congr 1
  omega

/-- At the level where it is bound, the type of every name that can be looked up has a property. -/
def Scope.OwnTypes (P : Ty → Prop) (scope : Scope Binding) (level : Nat) : Prop :=
  ∀ name b, scope.lookup? name = some b → P (b.own level)

namespace Scope.OwnTypes

variable {P : Ty → Prop} {scope : Scope Binding} {level : Nat}

theorem shift {amount : Int} {level' : Nat} (h : scope.OwnTypes P level)
    (hlevel : (level' : Int) = level - amount) :
    (scope.shift amount).OwnTypes P level' := by
  intro name b hb
  rcases Scope.lookup?_moved hlevel hb with ⟨b', hb', -, hown⟩
  rw [hown]
  exact h name b' hb'

/-- New names have the property at the level where they are bound. -/
theorem extendAll (h : scope.OwnTypes P level) {bound : List (String × Ty)} (hbound : ∀ b ∈ bound, P b.2) :
    (scope.extendAll (bound.map fun b => (b.1, ⟨b.2, level⟩))).OwnTypes P level := by
  intro name b hb
  rw [Scope.lookup?_extendAll, ← List.map_reverse] at hb
  rcases Option.or_eq_some_iff.1 hb with hnew | ⟨-, hold⟩
  · rcases List.mem_map.1 (Scope.mem_of_newest? hnew) with ⟨⟨name', τ⟩, hmem, heq⟩
    cases heq
    rw [Binding.own_self]
    exact hbound _ (List.mem_reverse.1 hmem)
  · exact h name b hold

end Scope.OwnTypes

/-- At the level where it is bound, every name in scope has a proper type. -/
def Scope.Proper (scope : Scope Binding) (level : Nat) : Prop :=
  ∀ name b, scope.lookup? name = some b → (b.own level).Proper

namespace Scope.Proper

variable {scope : Scope Binding} {level : Nat}

theorem shift {amount : Int} {level' : Nat} (h : scope.Proper level)
    (hlevel : (level' : Int) = level - amount) :
    (scope.shift amount).Proper level' :=
  OwnTypes.shift (P := Ty.Proper) h hlevel

theorem extendAll (h : scope.Proper level) {bound : List (String × Ty)} (hbound : ∀ b ∈ bound, b.2.Proper) :
    (scope.extendAll (bound.map fun b => (b.1, ⟨b.2, level⟩))).Proper level :=
  OwnTypes.extendAll (P := Ty.Proper) h hbound

theorem extend (h : scope.Proper level) (hτ : τ.Proper) (name : String) :
    (scope.extend name ⟨τ, level⟩).Proper level := by
  have hbound : ∀ b ∈ [(name, τ)], b.2.Proper := List.forall_mem_singleton.2 hτ
  exact h.extendAll hbound

end Scope.Proper

/-! ## Judged terms -/

variable {c : Context} {t : Term} {j : Judgement} {log : Log}

/-- A name has the property if its type has it at the level where the name is bound. -/
theorem Ty.Kept.lookupRule {P : Ty → Prop} (hP : Ty.Kept P)
    (hintrinsics : ∀ {name τ}, p.intrinsics.get? name = some τ → P τ) {node : NodeId} {name : String}
    (h : p.lookupRule c node name = .ok τ) (hown : ∀ b, c.scope.lookup? name = some b → P (b.own c.level)) :
    P τ := by
  cases hbound : c.scope.lookup? name with
  | none => exact hintrinsics (lookupRule_of_none hbound h)
  | some b =>
    have hb := hown b hbound
    rw [Prelude.lookupRule_bound hbound] at h
    cases h
    split
    · exact hb
    · -- the name is bound under no fewer quotes, and its type is no further down
      have hback : b.type = (b.own c.level).shift (b.level - c.level) := by
        rw [Binding.own, Ty.shift_shift]
        have hzero : (c.level : Int) - b.level + (b.level - c.level) = 0 := by omega
        rw [hzero, Ty.shift_zero]
      rw [hback]
      refine hP.shift hb ?_
      have := hP.nonneg hb
      omega

/-- **What is judged in a proper scope is proper**, and so is the scope after it. -/
theorem Judged.proper (hp : p.Proper) (h : Judged p c t j log) (hscope : c.scope.Proper c.level) :
    j.type.Proper ∧ j.scope.Proper c.level := by
  induction t generalizing c j log with
  | literal s value =>
    cases h
    exact ⟨Ty.proper_kept.literal value, hscope⟩
  | seq s l r ihl ihr =>
    cases h with
    | seq hl hr =>
      have hleft := ihl hl hscope
      -- the scope after the first part is proper, and the second goes on with it
      have hright := ihr hr hleft.2
      exact hright
  | define s name t ih =>
    cases h with
    | define ht =>
      have hvalue := ih ht hscope
      exact ⟨hvalue.1, hvalue.2.extend hvalue.1 name⟩
  | assign s name t ih =>
    cases h with
    | assign ht _ => exact ih ht hscope
  | lookup s name =>
    cases h with
    | lookup hrule =>
      exact ⟨Ty.proper_kept.lookupRule hp.intrinsic hrule (hscope name), hscope⟩
  | unary s op t ih =>
    cases h with
    | unary ht hrule =>
      have hoperand := ih ht hscope
      exact ⟨unaryRule_eq_ok hrule ▸ hoperand.1, hscope⟩
  | binary s op l r ihl ihr =>
    cases h with
    | binary hl hr hrule =>
      have hleft := ihl hl hscope
      have hright := ihr hr hleft.2
      exact ⟨Ty.proper_kept.binaryRule hrule hleft.1 hright.1, hscope⟩
  | quote s label snippet t ih =>
    cases h with
    | quote ht =>
      -- the scope is shifted as the level is, so that the types where names are bound stay as they are
      have hlevel : (c.quoted.level : Int) = c.level + 1 := rfl
      have hbody := ih ht (hscope.shift (by omega))
      exact ⟨Ty.proper_kept.quote hbody.1, hscope⟩
  | escape s kind t ih =>
    cases h with
    | escape hne ht hrule =>
      -- likewise; no level is lost in the subtraction, as there is a quote to escape from
      have hlevel : (c.escaped.level : Int) = c.level - 1 := by
        show ((c.level - 1 : Nat) : Int) = _
        omega
      have hbody := ih ht (hscope.shift (by omega))
      exact ⟨Ty.proper_kept.escapeRule hrule hbody.1, hscope⟩
  | run s t ih =>
    cases h with
    | run ht hrule =>
      have hbody := ih ht hscope
      exact ⟨Ty.proper_kept.runRule hrule hbody.1, hbody.2⟩
  | lambda s params t ih =>
    cases h with
    | lambda hparams ht =>
      -- written types are proper, so the parameters are
      have hbound := hscope.extendAll (Ty.proper_kept.paramRule hp.type hparams)
      have hbody := ih ht hbound
      -- a function is of stage zero, whatever it returns
      exact ⟨⟨Int.le_refl 0, hbody.1⟩, hscope⟩
  | call s f args ihf iha =>
    cases h with
    | call hf ha hrule =>
      have hcallee := ihf hf hscope
      exact ⟨Ty.proper_kept.callRule hrule hcallee.1, hscope⟩
  | host s name type =>
    cases h with
    | host hrule =>
      -- the type of a host is written in the program
      have htype := Ty.proper_kept.resolve hp.type type hrule
      exact ⟨htype, hscope.extend htype name⟩
  | held => cases h

/-- The type of a whole program is proper. -/
theorem Judged.proper_type (hp : p.Proper) (hj : Judged p {} t j log) : j.type.Proper := by
  have hscope : Scope.Proper {} 0 := by
    intro name b hb
    cases hb
  exact (hj.proper hp hscope).1

end Multistage
