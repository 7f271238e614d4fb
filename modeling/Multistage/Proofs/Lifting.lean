import Multistage.Proofs.Escapes
import Multistage.Proofs.Pointwise

/-!
# Lifting

A program can be put under further quotes. All levels in it go up by the same amount, and neither the
checker nor the pass that makes references explicit looks at more than differences of levels: a term has
the same types in the lifted context (`Judged.lift`), and the same references cross the same number of
stages (`Term.explicitAt_lift`).
-/

namespace Multistage

open Term

/-! ## Lifted contexts -/

/-- The same binding under `amount` further quotes. -/
def Binding.lift (amount : Nat) (b : Binding) : Binding := { b with level := b.level + amount }

/-- All names bound under `amount` further quotes. -/
def Scope.lift (amount : Nat) (s : Scope Binding) : Scope Binding := s.map (Binding.lift amount)

/-- The context under `amount` further quotes, with all names bound there too. -/
def Context.lift (amount : Nat) (c : Context) : Context := ⟨c.scope.lift amount, c.level + amount⟩

/-- The same type, with the scope after it lifted. -/
def Judgement.lift (amount : Nat) (j : Judgement) : Judgement := { j with scope := j.scope.lift amount }

/-- The judgements of the same nodes, lifted. -/
def Log.lift (amount : Nat) (log : Log) : Log := log.map fun e => (e.1, e.2.lift amount)

theorem Log.lift_append (amount : Nat) (a b : Log) :
    Log.lift amount (a ++ b) = a.lift amount ++ b.lift amount :=
  List.map_append

theorem Log.lift_concat (amount : Nat) (log : Log) (e : NodeId × Judgement) :
    Log.lift amount (log ++ [e]) = log.lift amount ++ [(e.1, e.2.lift amount)] :=
  List.map_append

namespace Scope

theorem lookup?_lift (amount : Nat) (s : Scope Binding) (name : String) :
    (s.lift amount).lookup? name = (s.lookup? name).map (Binding.lift amount) :=
  lookup?_map _ s name

theorem shift_lift (amount : Nat) (stages : Int) (s : Scope Binding) :
    (s.lift amount).shift stages = (s.shift stages).lift amount := by
  simp [lift, shift, map, Binding.lift]

end Scope

namespace Context

variable (amount : Nat) (c : Context)

theorem quoted_lift : (c.lift amount).quoted = c.quoted.lift amount := by
  simp only [quoted, lift, Scope.shift_lift, Nat.add_right_comm]

theorem escaped_lift (hlevel : c.level ≠ 0) : (c.lift amount).escaped = c.escaped.lift amount := by
  have hsub : c.level + amount - 1 = c.level - 1 + amount := by omega
  simp only [escaped, lift, Scope.shift_lift, hsub]

theorem bindAll_lift (params : List (String × Ty)) :
    (c.lift amount).bindAll params = (c.bindAll params).lift amount := by
  simp [bindAll, lift, Scope.lift, Scope.map, Scope.extendAll, Binding.lift]

end Context

/-! ## The checker -/

section Rules

variable (p : Prelude) (amount : Nat) (c : Context) (node : NodeId) (name : String)

/-- The rule for lookups compares levels, which are lifted together. -/
theorem lookupRule_lift : p.lookupRule (c.lift amount) node name = p.lookupRule c node name := by
  have hlifted : (c.lift amount).scope.lookup? name = (c.scope.lookup? name).map (Binding.lift amount) :=
    Scope.lookup?_lift ..
  cases hbound : c.scope.lookup? name with
  | none =>
    rw [hbound] at hlifted
    rw [Prelude.lookupRule_unbound hlifted, Prelude.lookupRule_unbound hbound]
  | some b =>
    rw [hbound] at hlifted
    rw [Prelude.lookupRule_bound hlifted, Prelude.lookupRule_bound hbound]
    have hgap : (c.level : Int) + amount - (b.level + amount) = c.level - b.level := by omega
    simp [Binding.lift, Context.lift, hgap]

theorem assignRule_lift (type : Ty) :
    p.assignRule (c.lift amount) node name type = p.assignRule c node name type := by
  simp only [Prelude.assignRule, Prelude.targetRule, Context.lift, Scope.lookup?_lift]
  cases c.scope.lookup? name with
  | none => rfl
  | some b => simp [Binding.lift]

end Rules

variable {p : Prelude} {c : Context} {t : Term} {j : Judgement} {log : Log}

/-- Arguments have the same types under further quotes. -/
theorem JudgedAll.lift {ts : List Term} {types : List Ty} (h : JudgedAll p c ts types log) (amount : Nat)
    (ih : ∀ t ∈ ts, ∀ {c j log}, Judged p c t j log →
      Judged p (c.lift amount) t (j.lift amount) (log.lift amount)) :
    JudgedAll p (c.lift amount) ts types (log.lift amount) := by
  induction ts generalizing types log with
  | nil =>
    cases h
    exact .nil
  | cons t rest ihrest =>
    cases h with
    | cons ht hrest =>
      have hhead := ih t List.mem_cons_self ht
      have htail := ihrest hrest fun t ht => ih t (List.mem_cons_of_mem _ ht)
      rw [Log.lift_append]
      exact .cons (j := Judgement.lift amount _) hhead htail

/-- A term has the same types under further quotes. -/
theorem Judged.lift (h : Judged p c t j log) (amount : Nat) :
    Judged p (c.lift amount) t (j.lift amount) (log.lift amount) := by
  -- each rule sees levels only as differences, which lifting keeps
  induction t generalizing c j log with
  | literal s value =>
    cases h
    exact .literal
  | seq s l r ihl ihr =>
    cases h with
    | seq hl hr =>
      rw [Log.lift_concat, Log.lift_append]
      exact .seq (ihl hl) (ihr hr)
  | define s name t ih =>
    cases h with
    | define ht =>
      rw [Log.lift_concat]
      exact .define (ih ht)
  | assign s name t ih =>
    cases h with
    | assign ht hrule =>
      rw [Log.lift_concat]
      exact .assign (ih ht) ((assignRule_lift p amount c s.id name _).trans hrule)
  | lookup s name =>
    cases h with
    | lookup hrule => exact .lookup ((lookupRule_lift p amount c s.id name).trans hrule)
  | unary s op t ih =>
    cases h with
    | unary ht hrule =>
      rw [Log.lift_concat]
      exact .unary (ih ht) hrule
  | binary s op l r ihl ihr =>
    cases h with
    | binary hl hr hrule =>
      rw [Log.lift_concat, Log.lift_append]
      exact .binary (ihl hl) (ihr hr) hrule
  | quote s label snippet t ih =>
    cases h with
    | quote ht =>
      rw [Log.lift_concat]
      refine .quote (j := Judgement.lift amount _) ?_
      -- lifting by a number of quotes and going under one more commute
      rw [Context.quoted_lift]
      exact ih ht
  | escape s kind t ih =>
    cases h with
    | escape hlevel ht hrule =>
      rw [Log.lift_concat]
      -- an escape under a quote stands under one after lifting too
      have hlevel' : (c.lift amount).level ≠ 0 := by
        show c.level + amount ≠ 0
        omega
      refine .escape (j := Judgement.lift amount _) hlevel' ?_ hrule
      rw [Context.escaped_lift amount c hlevel]
      exact ih ht
  | run s t ih =>
    cases h with
    | run ht hrule =>
      rw [Log.lift_concat]
      exact .run (ih ht) hrule
  | lambda s params t ih =>
    cases h with
    | lambda hparams ht =>
      rw [Log.lift_concat]
      refine .lambda (j := Judgement.lift amount _) hparams ?_
      -- the parameters are bound at the lifted level
      rw [Context.bindAll_lift]
      exact ih ht
  | call s f args ihf iha =>
    cases h with
    | call hf ha hrule =>
      rw [Log.lift_concat, Log.lift_append]
      -- types carry no levels, so that the rule is the same
      exact .call (ihf hf) (ha.lift amount iha) hrule
  | host s name type =>
    cases h with
    | host hrule => exact .host hrule
  | held => cases h

/-! ## Explicit references -/

/-- A use of a name crosses as many stages as before. -/
theorem explicitLookup_lift (site : Site) (name : String) (scope : Scope Binding) (level amount : Nat) :
    explicitLookup site name (scope.lift amount) (level + amount) = explicitLookup site name scope level := by
  simp only [explicitLookup, Scope.lookup?_lift]
  cases scope.lookup? name with
  | none => rfl
  | some b => simp [Binding.lift, Nat.add_sub_add_right]

/-- Under further quotes the same references become explicit, if the scopes of the lookups are lifted. -/
theorem Term.explicitAt_lift {types types' : TypeTable} {level amount : Nat} (h : t.EscapesInside level)
    (htypes : ∀ id ∈ t.ids, types'.get? id = (types.get? id).map (Judgement.lift amount)) :
    t.explicitAt types' (level + amount) = t.explicitAt types level := by
  induction t using induct_children generalizing level with
  | step t ih =>
    by_cases htag : t.tag = .lookup
    · cases t <;> cases htag
      next s name =>
      -- a lookup becomes explicit by its own entry, which is lifted
      have hget := htypes s.id (ids_eq (.lookup s name) ▸ List.mem_cons_self)
      simp only [explicitAt, fold, hget]
      cases types.get? s.id with
      | none => rfl
      | some j => exact explicitLookup_lift s name j.scope level amount
    · have hinner : t.innerLevel (level + amount) = t.innerLevel level + amount := by
        have hescape := (escapesInside_iff.1 h).1
        cases t with
        | escape site kind body =>
          -- the subtraction is not cut off, as the escape stands under a quote
          have := hescape rfl
          simp only [innerLevel]
          omega
        | quote site label snippet body => exact Nat.add_right_comm _ _ _
        | _ => rfl
      have hchildren : ∀ child ∈ t.children, child.explicitAt types' (t.innerLevel (level + amount)) =
          child.explicitAt types (t.innerLevel level) := by
        intro child hchild
        rw [hinner]
        refine ih child hchild ?_ fun id hid => htypes id ?_
        · rw [h.innerLevel]
          exact h.child hchild
        · rw [ids_eq]
          exact List.mem_cons_of_mem _ (List.mem_flatMap.2 ⟨child, hchild, hid⟩)
      rw [explicitAt_of_not_lookup htag, explicitAt_of_not_lookup htag]
      rw [mapM_congr hchildren]

end Multistage
