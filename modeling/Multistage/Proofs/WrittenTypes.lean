import Multistage.Proofs.ScopeHistories
import Multistage.Proofs.Stages
import Multistage.Term.Printer

/-!
# Written types

A written type is resolved name by name. It stands for a type if the prelude has all its names, and otherwise
the first name that is missing is at fault. The type that it stands for has the same text, although the two
texts come about differently: a written type is bracketed once for each level of code, a type as often as its
stage says.

* `TypeExpr.names` lists the names as they are written;
* `Prelude.errorOf?_resolve`: resolving fails at the first missing name and nowhere else;
* `Ty.text_shift`: one more stage is one more pair of brackets, from stage zero on;
* `Prelude.resolved_types_print_as_written` puts it together for the preludes of the two modes.
-/

namespace Multistage

/-! ## Errors -/

section Errors

variable {ε α β : Type}

/-- The error of a computation that fails. -/
def errorOf? : Except ε α → Option ε
  | .ok _ => none
  | .error e => some e

theorem errorOf?_eq_some_iff {x : Except ε α} {e : ε} : errorOf? x = some e ↔ x = .error e := by
  cases x <;> simp [errorOf?]

theorem errorOf?_eq_none_iff {x : Except ε α} : errorOf? x = none ↔ ∃ a, x = .ok a := by
  cases x <;> simp [errorOf?]

/-- A computation and one after it, whose error does not depend on the result of the first. -/
theorem errorOf?_bind {x : Except ε α} {g : α → Except ε β} {later : Option ε}
    (h : ∀ a, errorOf? (g a) = later) : errorOf? (x >>= g) = (errorOf? x).or later := by
  cases x with
  | error e => rfl
  | ok a => exact h a

/-- What is done with the result makes no new error. -/
theorem errorOf?_bind_pure (x : Except ε α) (g : α → β) : errorOf? (x >>= fun a => pure (g a)) = errorOf? x := by
  cases x with
  | error e => rfl
  | ok a => rfl

end Errors

/-! ## Names -/

namespace TypeExpr

mutual
/-- The names in a written type, from left to right. -/
def names : TypeExpr → List String
  | .named name => [name]
  | .code inner => names inner
  | .arrow params result => namesAll params ++ names result

/-- The names in several written types. -/
def namesAll : List TypeExpr → List String
  | [] => []
  | a :: rest => names a ++ namesAll rest
end

end TypeExpr

namespace Prelude

variable (p : Prelude) (node : NodeId)

/-- The first of several names that no type has. -/
def missing? (names : List String) : Option String :=
  names.find? fun name => name ∉ p.types.map Prod.fst

theorem missing?_append (as bs : List String) :
    p.missing? (as ++ bs) = (p.missing? as).or (p.missing? bs) :=
  List.find?_append

theorem missing?_singleton (name : String) :
    p.missing? [name] = if p.types.get? name = none then some name else none := by
  rw [missing?, List.find?_singleton, Vocabulary.get?]
  simp only [Scope.newest?_eq_none_iff, decide_eq_true_eq]

mutual
/-- Resolving fails for the first name that is missing, and only for that reason. -/
theorem errorOf?_resolve (written : TypeExpr) :
    errorOf? (p.resolve node written) = (p.missing? written.names).map (.unknownType node) := by
  match written with
  | .named name =>
    rw [resolve_named, TypeExpr.names, missing?_singleton]
    cases p.types.get? name with
    | none => rfl
    | some type => rfl
  | .code inner =>
    rw [resolve_code, TypeExpr.names, errorOf?_bind_pure, errorOf?_resolve inner]
  | .arrow params result =>
    have hresult (types : List Ty) :
        errorOf? (p.resolve node result >>= fun type => pure (Ty.function types type)) =
          (p.missing? result.names).map (.unknownType node) := by
      rw [errorOf?_bind_pure, errorOf?_resolve result]
    rw [resolve_arrow, TypeExpr.names, missing?_append, errorOf?_bind hresult, errorOf?_resolveAll params,
      Option.map_or]

/-- Resolving types fails at the first name that the prelude lacks. -/
theorem errorOf?_resolveAll (written : List TypeExpr) :
    errorOf? (p.resolveAll node written) =
      (p.missing? (TypeExpr.namesAll written)).map (.unknownType node) := by
  match written with
  | [] => rfl
  | first :: rest =>
    have hrest (type : Ty) :
        errorOf? (p.resolveAll node rest >>= fun types => pure (type :: types)) =
          (p.missing? (TypeExpr.namesAll rest)).map (.unknownType node) := by
      rw [errorOf?_bind_pure, errorOf?_resolveAll rest]
    rw [resolveAll_cons, TypeExpr.namesAll, missing?_append, errorOf?_bind hrest, errorOf?_resolve first,
      Option.map_or]
end

end Prelude

/-! ## Texts -/

namespace Ty

theorem staged_zero (text : String) : staged 0 text = text := by
  simp [staged]

/-- From stage zero on, one more stage is one more pair of angle brackets. -/
theorem staged_succ {stage : Int} (h : 0 ≤ stage) (text : String) :
    staged (stage + 1) text = "<" ++ staged stage text ++ ">" := by
  obtain ⟨depth, rfl⟩ := Int.eq_ofNat_of_zero_le h
  have hmore : ((depth : Int) + 1).natAbs = depth + 1 := by omega
  have hopening : String.ofList (List.replicate (depth + 1) '<') =
      "<" ++ String.ofList (List.replicate depth '<') := by
    rw [List.replicate_succ, String.ofList_cons]
    rfl
  have hclosing : String.ofList (List.replicate (depth + 1) '>') =
      String.ofList (List.replicate depth '>') ++ ">" := by
    rw [List.replicate_succ', String.ofList_append]
  simp only [staged, if_pos h, if_pos (show (depth : Int) + 1 ≥ 0 by omega), hmore, Int.natAbs_natCast, hopening,
    hclosing, String.append_assoc]

theorem text_shift {τ : Ty} (h : 0 ≤ τ.stage) : (τ.shift 1).text = "<" ++ τ.text ++ ">" := by
  cases τ with
  | base kind stage => exact staged_succ h _
  | arrow params result stage => exact staged_succ h _

end Ty

namespace Prelude

variable {p : Prelude} {node : NodeId}

mutual
/-- A written type and the type that it stands for have the same text, if names and named types do. -/
theorem text_resolve (hproper : p.Proper) (hnames : ∀ {name τ}, p.types.get? name = some τ → τ.text = name)
    (written : TypeExpr) {τ : Ty} (h : p.resolve node written = .ok τ) : τ.text = written.text := by
  match written with
  | .named name =>
    rw [resolve_named] at h
    cases htype : p.types.get? name with
    | none =>
      rw [htype] at h
      cases h
    | some type =>
      rw [htype] at h
      cases h
      exact hnames htype
  | .code inner =>
    rw [resolve_code] at h
    rcases Except.bind_eq_ok.1 h with ⟨type, htype, hτ⟩
    cases hτ
    have hstage := (Ty.proper_kept.resolve hproper.type inner htype).stage_nonneg
    rw [Ty.text_shift hstage, text_resolve hproper hnames inner htype, TypeExpr.text]
  | .arrow params result =>
    rw [resolve_arrow] at h
    rcases Except.bind_eq_ok.1 h with ⟨types, hparams, h₁⟩
    rcases Except.bind_eq_ok.1 h₁ with ⟨type, htype, hτ⟩
    cases hτ
    rw [Ty.function, Ty.text, Ty.staged_zero, textAll_resolveAll hproper hnames params hparams,
      text_resolve hproper hnames result htype, TypeExpr.text]

/-- Types are shown as they are written. -/
theorem textAll_resolveAll (hproper : p.Proper) (hnames : ∀ {name τ}, p.types.get? name = some τ → τ.text = name)
    (written : List TypeExpr) {types : List Ty} (h : p.resolveAll node written = .ok types) :
    Ty.textAll types = TypeExpr.textAll written := by
  match written with
  | [] =>
    cases h
    rfl
  | first :: rest =>
    rw [resolveAll_cons] at h
    rcases Except.bind_eq_ok.1 h with ⟨type, htype, h₁⟩
    rcases Except.bind_eq_ok.1 h₁ with ⟨others, hothers, hτ⟩
    cases hτ
    rw [Ty.textAll, text_resolve hproper hnames first htype, textAll_resolveAll hproper hnames rest hothers,
      TypeExpr.textAll]
end

/-- In both modes the text of a named type is its name. -/
theorem text_of_type (mode : Mode) {name : String} {τ : Ty} (h : (ofMode mode).types.get? name = some τ) :
    τ.text = name := by
  have hall : ∀ entry ∈ (ofMode mode).types, entry.2.text = entry.1 := by
    cases mode with
    | general => decide +kernel
    | shader => decide +kernel
  exact hall (name, τ) (Scope.mem_of_newest? h)

/-- **Resolved types print as they are written**, in both modes. A written type stands for a type if all its
names are names of types; else the fault is that of the first missing name, from left to right; and a type has
the text of the written type that stands for it. -/
theorem resolved_types_print_as_written (mode : Mode) (node : NodeId) (written : TypeExpr) :
    ((∃ τ, (ofMode mode).resolve node written = .ok τ) ↔
      ∀ name ∈ written.names, name ∈ (ofMode mode).types.map Prod.fst) ∧
    (∀ fault, (ofMode mode).resolve node written = .error fault ↔
      ∃ name, written.names.find? (fun name => name ∉ (ofMode mode).types.map Prod.fst) = some name ∧
        fault = .unknownType node name) ∧
    ∀ τ, (ofMode mode).resolve node written = .ok τ → τ.text = written.text := by
  have herror := (ofMode mode).errorOf?_resolve node written
  refine ⟨?_, ?_, fun τ h => text_resolve (ofMode_proper mode) (text_of_type mode) written h⟩
  · rw [← errorOf?_eq_none_iff, herror, Option.map_eq_none_iff, missing?, List.find?_eq_none]
    simp only [decide_eq_true_eq, not_not]
  · intro fault
    rw [← errorOf?_eq_some_iff, herror, Option.map_eq_some_iff]
    exact exists_congr fun name => and_congr_right fun _ => eq_comm

/-- `(<Float4> -> <<Mesh>>)` names two types that only shaders have. -/
example :
    let written : TypeExpr := .arrow [.code (.named "Float4")] (.code (.code (.named "Mesh")))
    (errorOf? (general.resolve 7 written) = some (.unknownType 7 "Float4")) ∧
      (shader.resolve 7 written).toOption.map Ty.text = some "(<Float4> -> <<Mesh>>)" := by
  decide +kernel

end Prelude

end Multistage
