import Multistage.Proofs.Stages

/-!
# Extended preludes

A prelude extends another one if it has all its types and intrinsics, and arithmetic that gives a type in the
smaller prelude gives the same one in the larger. Names that only the larger prelude knows make no difference to
a program that the smaller one accepts: such a name is either bound by the program, and a binding comes before
every intrinsic, or it does not occur. So the two preludes judge the program alike, node by node
(`Judged.extend`).

Main statement: `shader_extends_general`.
-/

namespace Multistage

/-- The prelude `q` knows all that `p` knows. -/
structure Prelude.Extends (q p : Prelude) : Prop where
  types : ∀ {name τ}, p.types.get? name = some τ → q.types.get? name = some τ
  intrinsics : ∀ {name τ}, p.intrinsics.get? name = some τ → q.intrinsics.get? name = some τ
  arithmetic : ∀ {node op α β τ}, binaryRule p.mode node op α β = .ok τ →
    binaryRule q.mode node op α β = .ok τ

/-! ## Rules -/

namespace Prelude.Extends

variable {p q : Prelude} {c : Context} {node : NodeId} {τ : Ty}

mutual
/-- An annotation stands for the same type. -/
theorem resolve (h : q.Extends p) (written : TypeExpr) {τ : Ty} (hp : p.resolve node written = .ok τ) :
    q.resolve node written = .ok τ := by
  match written with
  | .named name =>
    rw [Prelude.resolve_named] at hp
    split at hp
    · next type htype =>
      rw [Prelude.resolve_named, h.types htype]
      exact hp
    · cases hp
  | .code inner =>
    rw [Prelude.resolve_code] at hp ⊢
    rcases Except.bind_eq_ok.1 hp with ⟨type, htype, hτ⟩
    exact Except.bind_eq_ok.2 ⟨type, h.resolve inner htype, hτ⟩
  | .arrow params result =>
    rw [Prelude.resolve_arrow] at hp ⊢
    rcases Except.bind_eq_ok.1 hp with ⟨types, htypes, hp₁⟩
    rcases Except.bind_eq_ok.1 hp₁ with ⟨type, htype, hτ⟩
    exact Except.bind_eq_ok.2 ⟨types, h.resolveAll params htypes,
      Except.bind_eq_ok.2 ⟨type, h.resolve result htype, hτ⟩⟩

/-- Several annotations stand for the same types. -/
theorem resolveAll (h : q.Extends p) (written : List TypeExpr) {types : List Ty}
    (hp : p.resolveAll node written = .ok types) : q.resolveAll node written = .ok types := by
  match written with
  | [] => exact hp
  | first :: rest =>
    rw [Prelude.resolveAll_cons] at hp ⊢
    rcases Except.bind_eq_ok.1 hp with ⟨type, htype, hp₁⟩
    rcases Except.bind_eq_ok.1 hp₁ with ⟨others, hothers, htypes⟩
    exact Except.bind_eq_ok.2 ⟨type, h.resolve first htype,
      Except.bind_eq_ok.2 ⟨others, h.resolveAll rest hothers, htypes⟩⟩
end

variable (h : q.Extends p)

include h

/-- Parameters have the same types in an extension. -/
theorem paramRule {params : List Param} {bound : List (String × Ty)} (hp : p.paramRule node params = .ok bound) :
    q.paramRule node params = .ok bound := by
  refine mapM_eq_ok.2 ((mapM_eq_ok.1 hp).imp ?_)
  intro param b hparam
  cases htype : param.type with
  | none =>
    rw [htype] at hparam
    exact hparam
  | some written =>
    rw [htype] at hparam
    rcases Except.bind_eq_ok.1 hparam with ⟨type, hresolve, hb⟩
    exact Except.bind_eq_ok.2 ⟨type, h.resolve written hresolve, hb⟩

/-- A name that is not bound is an intrinsic of both. -/
theorem lookupRule {name : String} (hp : p.lookupRule c node name = .ok τ) :
    q.lookupRule c node name = .ok τ := by
  cases hbound : c.scope.lookup? name with
  | some b =>
    rw [Prelude.lookupRule_bound hbound] at hp ⊢
    exact hp
  | none =>
    have hintrinsic := h.intrinsics (lookupRule_of_none hbound hp)
    rw [Prelude.lookupRule_unbound hbound, hintrinsic]

/-- An assignment has the same target in an extension. -/
theorem targetRule {name : String} (hp : p.targetRule c node name = .ok τ) :
    q.targetRule c node name = .ok τ := by
  cases hbound : c.scope.lookup? name with
  | some b =>
    rw [Prelude.targetRule, hbound] at hp ⊢
    exact hp
  | none =>
    rw [Prelude.targetRule, hbound] at hp ⊢
    dsimp only at hp ⊢
    split at hp
    · next type htype =>
      rw [h.intrinsics htype]
      exact hp
    · cases hp

theorem assignRule {name : String} (hp : p.assignRule c node name τ = .ok ()) :
    q.assignRule c node name τ = .ok () := by
  rcases Except.bind_eq_ok.1 hp with ⟨target, htarget, hsame⟩
  exact Except.bind_eq_ok.2 ⟨target, h.targetRule htarget, hsame⟩

end Prelude.Extends

/-! ## Judged terms -/

variable {p q : Prelude} {c : Context} {t : Term} {j : Judgement} {log : Log}

/-- Arguments are judged alike in an extension. -/
theorem JudgedAll.extend {ts : List Term} {types : List Ty} (h : JudgedAll p c ts types log)
    (ih : ∀ t ∈ ts, ∀ {c j log}, Judged p c t j log → Judged q c t j log) : JudgedAll q c ts types log := by
  induction ts generalizing types log with
  | nil =>
    cases h
    exact .nil
  | cons t rest ihrest =>
    cases h with
    | cons ht hrest =>
      have hhead := ih t List.mem_cons_self ht
      have htail := ihrest hrest fun u hu => ih u (List.mem_cons_of_mem _ hu)
      exact .cons hhead htail

/-- What a prelude accepts, every extension of it judges alike at every node. -/
theorem Judged.extend (hpq : q.Extends p) (h : Judged p c t j log) : Judged q c t j log := by
  -- a larger prelude matters where names, written types and operators are resolved; the other rules have none
  induction t generalizing c j log with
  | literal site value =>
    cases h
    exact .literal
  | seq site lhs rhs ihl ihr =>
    cases h with
    | seq hl hr => exact .seq (ihl hl) (ihr hr)
  | define site name value ih =>
    cases h with
    | define hvalue => exact .define (ih hvalue)
  | assign site name value ih =>
    cases h with
    | assign hvalue hrule => exact .assign (ih hvalue) (hpq.assignRule hrule)
  | lookup site name =>
    cases h with
    | lookup hrule => exact .lookup (hpq.lookupRule hrule)
  | unary site op operand ih =>
    cases h with
    | unary hoperand hrule => exact .unary (ih hoperand) hrule
  | binary site op lhs rhs ihl ihr =>
    cases h with
    | binary hl hr hrule => exact .binary (ihl hl) (ihr hr) (hpq.arithmetic hrule)
  | quote site label snippet body ih =>
    cases h with
    | quote hbody => exact .quote (ih hbody)
  | escape site kind body ih =>
    cases h with
    | escape hlevel hbody hrule => exact .escape hlevel (ih hbody) hrule
  | run site body ih =>
    cases h with
    | run hbody hrule => exact .run (ih hbody) hrule
  | lambda site params body ih =>
    cases h with
    | lambda hparams hbody => exact .lambda (hpq.paramRule hparams) (ih hbody)
  | call site callee args ihf iha =>
    cases h with
    | call hf ha hrule => exact .call (ihf hf) (ha.extend iha) hrule
  | host site name written =>
    cases h with
    | host hrule => exact .host (hpq.resolve written hrule)
  | held => cases h

/-! ## The two modes -/

/-- Two numbers are combined by the same rule in both modes. -/
theorem shaderRule_of_numericRule {node : NodeId} {op : BinaryOp} {α β τ : Ty}
    (h : numericRule node α β = .ok τ) : shaderRule node op α β = .ok τ := by
  rcases numericRule_eq_ok h with ⟨⟨-, hα⟩, ⟨-, hβ⟩, -⟩
  rw [shaderRule, hα, hβ]
  exact h

/-- The shader prelude has all types, intrinsics and rules of the general one. -/
theorem Prelude.shader_extends : shader.Extends general where
  types := by
    intro name τ h
    show Scope.newest? name (general.types ++ _) = some τ
    rw [Scope.newest?_append]
    exact Option.or_eq_some_iff.2 (.inl h)
  intrinsics := by
    intro name τ h
    show Scope.newest? name (general.intrinsics ++ _) = some τ
    rw [Scope.newest?_append]
    exact Option.or_eq_some_iff.2 (.inl h)
  arithmetic := by
    intro node op α β τ h
    exact shaderRule_of_numericRule h

/-- **Shader mode is a conservative extension of general mode.** A program that elaborates in general mode
elaborates in shader mode too, to the same table: every node has the same type and the same scope after it. -/
theorem shader_extends_general (t : Term) (e : Elaboration) (h : Prelude.general.elaborate t = .ok e) :
    Prelude.shader.elaborate t = .ok e := by
  rcases elaborate_eq_ok_iff.1 h with ⟨j, log, hj, rfl⟩
  exact elaborate_eq_ok_iff.2 ⟨j, log, hj.extend Prelude.shader_extends, rfl⟩

/-- `let max = fun view:Float -> view * 2; max = max; < max(float(1)) + 0.5 >`, where `max` and `view` are
intrinsics of shaders. -/
def shaderNames : Term :=
  .seq ⟨0, {}⟩
    (.define ⟨1, {}⟩ "max" (.lambda ⟨2, {}⟩ [⟨3, "view", some (.named "Float")⟩]
      (.binary ⟨4, {}⟩ .mul (.lookup ⟨5, {}⟩ "view") (.literal ⟨6, {}⟩ (.int 2)))))
    (.seq ⟨7, {}⟩ (.assign ⟨8, {}⟩ "max" (.lookup ⟨9, {}⟩ "max"))
      (.quote ⟨10, {}⟩ none false
        (.binary ⟨11, {}⟩ .add
          (.call ⟨12, {}⟩ (.lookup ⟨13, {}⟩ "max")
            [.call ⟨14, {}⟩ (.lookup ⟨15, {}⟩ "float") [.literal ⟨16, {}⟩ (.int 1)]])
          (.literal ⟨17, {}⟩ (.float 0.5)))))

/-- The program's own `max` and `view` hide the intrinsics, which have other types. -/
theorem shader_extends_general_shaderNames :
    Prelude.shader.intrinsics.get? "max" = some (.function [.float, .float] .float) ∧
    ∃ e, Prelude.general.elaborate shaderNames = .ok e ∧ Prelude.shader.elaborate shaderNames = .ok e ∧
      (e.table.get? 9).map (·.type) = some (.function [.float] .float) ∧
      e.rootType? = some (.base .float 1) := by
  obtain ⟨e, he, htype, hroot⟩ : ∃ e, Prelude.general.elaborate shaderNames = .ok e ∧
      (e.table.get? 9).map (·.type) = some (.function [.float] .float) ∧
      e.rootType? = some (.base .float 1) :=
    ⟨_, rfl, by decide +kernel, by decide +kernel⟩
  exact ⟨by decide +kernel, e, he, shader_extends_general shaderNames e he, htype, hroot⟩

end Multistage
